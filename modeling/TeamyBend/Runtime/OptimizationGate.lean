/-
# The gate of the host arithmetic

`checked_optimizations` in `nat.rs` lets the runtime compute a bundled operation itself only
where nothing in the program differs from the bundled sources: it compares the declaration of the
operation, and of every name that the bundled declarations refer to, with the bundled one.

`admitted` is its loop over the names still to compare.  A name is compared at most once and every
name that is compared was declared by the bundled sources, so the loop ends; when it ends with
`true`, the names compared are closed under reference (`admitted_closed`), and every name that is
reached is among them.
-/
import TeamyBend.Runtime.Shape
import TeamyBend.Runtime.Thunks
import TeamyBend.Kernel.Book

namespace TeamyBend.Runtime

open Kernel Evaluator

/-! ## 1. Declarations -/

/-- `DefDecl::declared_arity`. -/
def declaredArity (d : DefDecl) : Nat :=
  (d.completionParameters.map List.length).getD d.parameters.length

namespace Shape

/-- `self.bindings.clear()`. -/
def cleared (next : Comparison) : Comparison := fun self => next { self with bindings := [] }

/-- `self.bindings.truncate(count)`. -/
def truncated (count : Nat) (next : Comparison) : Comparison := fun self =>
  next { self with bindings := self.bindings.take count }

/-- `self.bindings.push((actual, expected))`. -/
def pushed (actual expected : Nat) (next : Comparison) : Comparison := fun self =>
  next { self with bindings := self.bindings ++ [(actual, expected)] }

/-- The loop over two lists of parameters or fields. -/
def parameters : List (Binder Term) → List (Binder Term) → Comparison
  | a :: as, e :: es =>
    both (holds (a.quant == e.quant)) (both (term a.ty e.ty) (pushed a.id e.id (parameters as es)))
  | _, _ => holds true

/-- The comparison of two bodies. -/
def body : Option Term → Option Term → Comparison
  | some a, some e => term a e
  | _, _ => holds false

/-- `Shape::definition`. -/
def definition (actual expected : DefDecl) : Comparison :=
  if actual.name ≠ expected.name ∨ actual.foreign ∨ actual.unsafe_ ∨
      actual.parameters.length ≠ expected.parameters.length ∨
      declaredArity actual ≠ declaredArity expected then holds false
  else
    both (parameters actual.parameters expected.parameters)
      (cleared (both (term actual.ty expected.ty) (body actual.body expected.body)))

/-- The loop over the constructors of two datatypes of `count` parameters. -/
def constructors (count : Nat) : List ConstructorDecl → List ConstructorDecl → Comparison
  | a :: as, e :: es =>
    if a.name ≠ e.name ∨ a.fields.length ≠ e.fields.length then holds false
    else truncated count (both (parameters a.fields e.fields) (constructors count as es))
  | _, _ => holds true

/-- `Shape::datatype`. -/
def datatype (actual expected : AdtDecl) : Comparison :=
  if actual.name ≠ expected.name ∨ actual.parameters.length ≠ expected.parameters.length ∨
      actual.constructors.length ≠ expected.constructors.length then holds false
  else
    both (parameters actual.parameters expected.parameters)
      (both (term actual.kind expected.kind)
        (constructors actual.parameters.length actual.constructors expected.constructors))

end Shape

/-! ## 2. What the comparison of declarations is about -/

/-- The scope behind a list of parameters. -/
def behind (s : Scope) (bs : List (Binder Term)) : Scope := bs.foldl (fun s b => s.push b.id) s

/-- The quantities and nameless types of a list of parameters, each in the scope of those before
it. -/
def telescope (s : Scope) : List (Binder Term) → List (Quant × Nameless)
  | [] => []
  | b :: bs => (b.quant, unmark (strip s b.ty)) :: telescope (s.push b.id) bs

/-- Every type is closed in the scope of the parameters before it. -/
def ClosedTelescope (scope : List Nat) : List (Binder Term) → Prop
  | [] => True
  | b :: bs => ClosedIn scope b.ty ∧ ClosedTelescope (scope ++ [b.id]) bs

/-- No parameter, and no binder in its type, has a number in scope. -/
def UnshadowedTelescope (scope : List Nat) : List (Binder Term) → Prop
  | [] => True
  | b :: bs =>
    Unshadowed scope b.ty ∧ b.id ∉ scope ∧ UnshadowedTelescope (scope ++ [b.id]) bs

/-- The names that a list of parameters mentions. -/
def telescopeMentions (bs : List (Binder Term)) : List String := bs.flatMap (mentions ·.ty)

namespace Shape

/-- The pairs in scope and the two scopes say the same, and no number of the expected side is
there twice. -/
def Linked (pairs : List (Nat × Nat)) (s s' : Scope) : Prop :=
  ∃ σ : Nat → Nat, σ.Injective ∧ Indexed σ (pairs.map Prod.fst) s ∧
    Indexed σ (pairs.map Prod.snd) s' ∧ (pairs.map Prod.snd).Nodup

theorem linked_nil : Linked [] Scope.free Scope.free :=
  ⟨id, Function.injective_id, indexed_nil id, indexed_nil id, List.nodup_nil⟩

theorem Linked.push {pairs : List (Nat × Nat)} {s s' : Scope} (h : Linked pairs s s') {x y : Nat}
    (hy : y ∉ pairs.map Prod.snd) : Linked (pairs ++ [(x, y)]) (s.push x) (s'.push y) := by
  obtain ⟨σ, hσ, hs, hs', hnodup⟩ := h
  refine ⟨under σ 1, under_injective hσ 1, ?_, ?_, ?_⟩
  · simpa using hs.push x
  · simpa using hs'.push y
  · rw [List.map_append, List.nodup_append]
    refine ⟨hnodup, by simp, fun c hc d hd heq => hy ?_⟩
    have hdy : d = y := by simpa using hd
    rw [← hdy, ← heq]
    exact hc

theorem Linked.exact {pairs : List (Nat × Nat)} {s s' : Scope} (h : Linked pairs s s')
    {a e : Term} (ha : LetsApart a) (he : Unshadowed (pairs.map Prod.snd) e) :
    Exact pairs s s' a e := by
  obtain ⟨σ, hσ, hs, hs', hnodup⟩ := h
  exact exact_term hσ hs hs' hnodup ha he

theorem Compares.pushed {pairs pairs' : List (Nat × Nat)} {f : Comparison} {P : Prop}
    {R : List String} {x y : Nat} (h : Compares (pairs ++ [(x, y)]) f pairs' P R) :
    Compares pairs (pushed x y f) pairs' P R :=
  ⟨h.result, h.bindings, h.references⟩

theorem Compares.cleared {pairs pairs' : List (Nat × Nat)} {f : Comparison} {P : Prop}
    {R : List String} (h : Compares [] f pairs' P R) : Compares pairs (cleared f) pairs' P R :=
  ⟨h.result, h.bindings, h.references⟩

theorem Compares.truncated {base pairs pairs' : List (Nat × Nat)} {f : Comparison} {P : Prop}
    {R : List String} {count : Nat} (h : Compares base f pairs' P R)
    (hbase : pairs.take count = base) : Compares pairs (truncated count f) pairs' P R := by
  subst hbase
  exact ⟨h.result, h.bindings, h.references⟩

/-- The pairs behind two lists of parameters. -/
def pairsBehind (pairs : List (Nat × Nat)) (as es : List (Binder Term)) : List (Nat × Nat) :=
  pairs ++ (as.map (·.id)).zip (es.map (·.id))

/-- **The comparison of two lists of parameters**, each in the scope of those before it. -/
theorem Linked.parameters {pairs : List (Nat × Nat)} {s s' : Scope} (h : Linked pairs s s')
    {as es : List (Binder Term)} (hlen : as.length = es.length) (ha : ∀ a ∈ as, LetsApart a.ty)
    (he : UnshadowedTelescope (pairs.map Prod.snd) es) :
    Linked (pairsBehind pairs as es) (behind s as) (behind s' es) ∧
      Compares pairs (parameters as es) (pairsBehind pairs as es)
        (ClosedTelescope (pairs.map Prod.fst) as ∧ telescope s as = telescope s' es ∧
          ∀ e ∈ es, Holeless e.ty)
        (telescopeMentions es) := by
  induction as generalizing pairs s s' es with
  | nil =>
    obtain rfl := List.eq_nil_of_length_eq_zero hlen.symm
    have hpairs : pairsBehind pairs [] [] = pairs := by simp [pairsBehind]
    rw [hpairs]
    exact ⟨h, (Compares.holds true).congr (by simp [ClosedTelescope, telescope])
      fun _ _ => by simp [telescopeMentions]⟩
  | cons a as ih =>
    cases es with
    | nil => simp at hlen
    | cons e es =>
      have hpairs : pairsBehind (pairs ++ [(a.id, e.id)]) as es =
          pairsBehind pairs (a :: as) (e :: es) := by simp [pairsBehind]
      have hfst : (pairs ++ [(a.id, e.id)]).map Prod.fst = pairs.map Prod.fst ++ [a.id] := by simp
      have hsnd : (pairs ++ [(a.id, e.id)]).map Prod.snd = pairs.map Prod.snd ++ [e.id] := by simp
      obtain ⟨hlinked, hrest⟩ := ih (h.push he.2.1) (by simpa using hlen)
        (fun b hb => ha b (List.mem_cons_of_mem _ hb)) (hsnd ▸ he.2.2)
      rw [hpairs] at hlinked hrest
      rw [hfst] at hrest
      refine ⟨hlinked, ((Compares.holds (a.quant == e.quant)).both fun _ =>
        (h.exact (ha a (by simp)) he.1).both fun _ => hrest.pushed).congr ?_ fun _ _ => ?_⟩
      · simp only [ClosedTelescope, telescope, List.cons.injEq, Prod.mk.injEq, beq_iff_eq,
          List.forall_mem_cons]
        tauto
      · simp [telescopeMentions]

end Shape

theorem length_telescope (s : Scope) (bs : List (Binder Term)) :
    (telescope s bs).length = bs.length := by
  induction bs generalizing s with
  | nil => rfl
  | cons b bs ih => simp [telescope, ih]

theorem length_eq_of_telescope {s s' : Scope} {as es : List (Binder Term)}
    (h : telescope s as = telescope s' es) : as.length = es.length := by
  rw [← length_telescope s as, h, length_telescope]

/-! ## 3. Definitions and datatypes -/

/-- Two definitions are one up to binders and marks. -/
structure SameDefinition (a e : DefDecl) : Prop where
  name : a.name = e.name
  parameters : telescope .free a.parameters = telescope .free e.parameters
  arity : declaredArity a = declaredArity e
  ty : unmark (nameless a.ty) = unmark (nameless e.ty)
  body : ∃ b b', a.body = some b ∧ e.body = some b' ∧ unmark (nameless b) = unmark (nameless b')

/-- What else the source asks of a definition: nothing in it is foreign, open, or left out. -/
structure SupportedDefinition (a e : DefDecl) : Prop where
  native : a.foreign = false ∧ a.unsafe_ = false
  closed : ClosedTelescope [] a.parameters ∧ ClosedIn [] a.ty ∧ ∀ b, a.body = some b → ClosedIn [] b
  holeless : (∀ p ∈ e.parameters, Holeless p.ty) ∧ Holeless e.ty ∧
    ∀ b, e.body = some b → Holeless b

/-- Two datatypes are one up to binders and marks. -/
structure SameDatatype (a e : AdtDecl) : Prop where
  name : a.name = e.name
  parameters : telescope .free a.parameters = telescope .free e.parameters
  kind : unmark (strip (behind .free a.parameters) a.kind) =
    unmark (strip (behind .free e.parameters) e.kind)
  constructors :
    a.constructors.map (fun c => (c.name, telescope (behind .free a.parameters) c.fields)) =
      e.constructors.map fun c => (c.name, telescope (behind .free e.parameters) c.fields)

/-- No `let` of the definition binds one number twice. -/
def ApartDefinition (a : DefDecl) : Prop :=
  (∀ p ∈ a.parameters, LetsApart p.ty) ∧ LetsApart a.ty ∧ ∀ b, a.body = some b → LetsApart b

/-- No binder of the definition is bound again inside its own scope. -/
def UnshadowedDefinition (e : DefDecl) : Prop :=
  UnshadowedTelescope [] e.parameters ∧ Unshadowed [] e.ty ∧
    ∀ b, e.body = some b → Unshadowed [] b

/-- The names that a definition mentions. -/
def definitionMentions (e : DefDecl) : List String :=
  telescopeMentions e.parameters ++ (mentions e.ty ++ (e.body.map mentions).getD [])

namespace Shape

theorem compares_body {a e : Option Term} (ha : ∀ b, a = some b → LetsApart b)
    (he : ∀ b, e = some b → Unshadowed [] b) :
    Compares [] (body a e) []
      (∃ b b', a = some b ∧ e = some b' ∧ ClosedIn [] b ∧
        unmark (nameless b) = unmark (nameless b') ∧ Holeless b')
      ((e.map mentions).getD []) := by
  cases a with
  | none => exact (Compares.holds false).congr (by simp) fun h => by simp at h
  | some a =>
    cases e with
    | none => exact (Compares.holds false).congr (by simp) fun h => by simp at h
    | some e =>
      have hexact := linked_nil.exact (ha a rfl) (he e rfl)
      exact hexact.congr (by simp [nameless]) fun _ _ => by simp

/-- **The comparison of two definitions.** -/
theorem compares_definition {a e : DefDecl} (ha : ApartDefinition a)
    (he : UnshadowedDefinition e) :
    Compares [] (definition a e) [] (SameDefinition a e ∧ SupportedDefinition a e)
      (definitionMentions e) := by
  unfold definition
  split
  · rename_i hguard
    refine (Compares.holds false).congr (iff_of_false (by simp) ?_) fun h => by simp at h
    rintro ⟨hsame, hsupported⟩
    have hlen := length_eq_of_telescope hsame.parameters
    rcases hguard with h | h | h | h | h
    · exact h hsame.name
    · simp [hsupported.native.1] at h
    · simp [hsupported.native.2] at h
    · exact h hlen
    · exact h hsame.arity
  · rename_i hguard
    simp only [not_or, not_not, Bool.not_eq_true] at hguard
    obtain ⟨hname, hforeign, hunsafe, hlen, harity⟩ := hguard
    obtain ⟨-, hparameters⟩ := linked_nil.parameters hlen ha.1 he.1
    have hty := linked_nil.exact ha.2.1 he.2.1
    have hbody := compares_body ha.2.2 he.2.2
    refine (hparameters.both fun _ => (hty.both fun _ => hbody).cleared).congr ?_ fun _ _ => by
      simp [definitionMentions]
    constructor
    · rintro ⟨⟨hc, htel, hh⟩, ⟨hct, hsame, hht⟩, b, b', hb, hb', hcb, hsameb, hhb⟩
      refine ⟨⟨hname, htel, harity, hsame, b, b', hb, hb', hsameb⟩, ⟨hforeign, hunsafe⟩,
        ⟨hc, hct, ?_⟩, hh, hht, ?_⟩
      · rw [hb]
        rintro _ ⟨⟩
        exact hcb
      · rw [hb']
        rintro _ ⟨⟩
        exact hhb
    · rintro ⟨hsame, hsupported⟩
      obtain ⟨b, b', hb, hb', hsameb⟩ := hsame.body
      exact ⟨⟨hsupported.closed.1, hsame.parameters, hsupported.holeless.1⟩,
        ⟨hsupported.closed.2.1, hsame.ty, hsupported.holeless.2.1⟩,
        b, b', hb, hb', hsupported.closed.2.2 b hb, hsameb, hsupported.holeless.2.2 b' hb'⟩

/-- **The comparison of two lists of constructors**, each in the scope of the parameters. -/
theorem compares_constructors {base : List (Nat × Nat)} {s s' : Scope} (h : Linked base s s')
    {as es : List ConstructorDecl} (hlen : as.length = es.length)
    (ha : ∀ c ∈ as, ∀ f ∈ c.fields, LetsApart f.ty)
    (he : ∀ c ∈ es, UnshadowedTelescope (base.map Prod.snd) c.fields) {pairs : List (Nat × Nat)}
    (hpairs : pairs.take base.length = base) :
    ∃ pairs', Compares pairs (constructors base.length as es) pairs'
      ((∀ c ∈ as, ClosedTelescope (base.map Prod.fst) c.fields) ∧
        as.map (fun c => (c.name, telescope s c.fields)) =
          es.map (fun c => (c.name, telescope s' c.fields)) ∧
        ∀ c ∈ es, ∀ f ∈ c.fields, Holeless f.ty)
      (es.flatMap (telescopeMentions ·.fields)) := by
  induction as generalizing es pairs with
  | nil =>
    obtain rfl := List.eq_nil_of_length_eq_zero hlen.symm
    exact ⟨pairs, (Compares.holds true).congr (by simp) fun _ _ => by simp⟩
  | cons a as ih =>
    cases es with
    | nil => simp at hlen
    | cons e es =>
      rw [constructors]
      split
      · rename_i hguard
        refine ⟨pairs, (Compares.holds false).congr (iff_of_false (by simp) ?_)
          fun h => by simp at h⟩
        rintro ⟨-, heq, -⟩
        simp only [List.map_cons, List.cons.injEq, Prod.mk.injEq] at heq
        rcases hguard with hname | hfields
        · exact hname heq.1.1
        · exact hfields (length_eq_of_telescope heq.1.2)
      · rename_i hguard
        simp only [not_or, not_not] at hguard
        obtain ⟨-, hfields⟩ := h.parameters hguard.2 (ha a (by simp)) (he e (by simp))
        have htake : (pairsBehind base a.fields e.fields).take base.length = base := by
          simp [pairsBehind]
        have hlen' : as.length = es.length := by simpa using hlen
        obtain ⟨pairs', hrest⟩ := ih hlen' (fun c hc => ha c (List.mem_cons_of_mem _ hc))
          (fun c hc => he c (List.mem_cons_of_mem _ hc)) htake
        refine ⟨pairs', ((hfields.both fun _ => hrest).truncated hpairs).congr ?_
          fun _ _ => by simp⟩
        simp only [List.forall_mem_cons, List.map_cons, List.cons.injEq, Prod.mk.injEq]
        tauto

end Shape

/-- What else the source asks of a datatype. -/
structure SupportedDatatype (a e : AdtDecl) : Prop where
  closed : ClosedTelescope [] a.parameters ∧ ClosedIn (a.parameters.map (·.id)) a.kind ∧
    ∀ c ∈ a.constructors, ClosedTelescope (a.parameters.map (·.id)) c.fields
  holeless : (∀ p ∈ e.parameters, Holeless p.ty) ∧ Holeless e.kind ∧
    ∀ c ∈ e.constructors, ∀ f ∈ c.fields, Holeless f.ty

/-- No `let` of the datatype binds one number twice. -/
def ApartDatatype (a : AdtDecl) : Prop :=
  (∀ p ∈ a.parameters, LetsApart p.ty) ∧ LetsApart a.kind ∧
    ∀ c ∈ a.constructors, ∀ f ∈ c.fields, LetsApart f.ty

/-- No binder of the datatype is bound again inside its own scope. -/
def UnshadowedDatatype (e : AdtDecl) : Prop :=
  UnshadowedTelescope [] e.parameters ∧ Unshadowed (e.parameters.map (·.id)) e.kind ∧
    ∀ c ∈ e.constructors, UnshadowedTelescope (e.parameters.map (·.id)) c.fields

/-- The names that a datatype mentions. -/
def datatypeMentions (e : AdtDecl) : List String :=
  telescopeMentions e.parameters ++
    (mentions e.kind ++ e.constructors.flatMap (telescopeMentions ·.fields))

namespace Shape

/-- **The comparison of two datatypes.** -/
theorem compares_datatype {a e : AdtDecl} (ha : ApartDatatype a) (he : UnshadowedDatatype e) :
    ∃ pairs, Compares [] (datatype a e) pairs (SameDatatype a e ∧ SupportedDatatype a e)
      (datatypeMentions e) := by
  unfold datatype
  split
  · rename_i hguard
    refine ⟨[], (Compares.holds false).congr (iff_of_false (by simp) ?_) fun h => by simp at h⟩
    rintro ⟨hsame, -⟩
    rcases hguard with h | h | h
    · exact h hsame.name
    · exact h (length_eq_of_telescope hsame.parameters)
    · exact h (length_eq_of_map hsame.constructors)
  · rename_i hguard
    simp only [not_or, not_not] at hguard
    obtain ⟨hname, hlen, hconstructors⟩ := hguard
    obtain ⟨hlinked, hparameters⟩ := linked_nil.parameters hlen ha.1 he.1
    have hids : (a.parameters.map (·.id)).length = (e.parameters.map (·.id)).length := by
      simpa using hlen
    have hfst : (pairsBehind [] a.parameters e.parameters).map Prod.fst =
        a.parameters.map (·.id) := by simp [pairsBehind, List.map_fst_zip hids.le]
    have hsnd : (pairsBehind [] a.parameters e.parameters).map Prod.snd =
        e.parameters.map (·.id) := by simp [pairsBehind, List.map_snd_zip hids.ge]
    have hcount : (pairsBehind [] a.parameters e.parameters).length = a.parameters.length := by
      simpa using congrArg List.length hfst
    have hkind := hlinked.exact ha.2.1 (hsnd ▸ he.2.1)
    obtain ⟨pairs', hfields⟩ := compares_constructors hlinked hconstructors ha.2.2
      (fun c hc => hsnd ▸ he.2.2 c hc) (List.take_length ..)
    rw [hcount, hfst] at hfields
    refine ⟨pairs', (hparameters.both fun _ => hkind.both fun _ => hfields).congr ?_
      fun _ _ => by simp [datatypeMentions]⟩
    rw [hfst]
    constructor
    · rintro ⟨⟨hc, htel, hh⟩, ⟨hck, hsame, hhk⟩, hcf, hcons, hhf⟩
      exact ⟨⟨hname, htel, hsame, hcons⟩, ⟨hc, hck, hcf⟩, hh, hhk, hhf⟩
    · rintro ⟨hsame, hsupported⟩
      exact ⟨⟨hsupported.closed.1, hsame.parameters, hsupported.holeless.1⟩,
        ⟨hsupported.closed.2.1, hsame.kind, hsupported.holeless.2.1⟩,
        hsupported.closed.2.2, hsame.constructors, hsupported.holeless.2.2⟩

end Shape

/-! ## 4. The gate -/

/-- The definitions and datatypes of a program by their names. -/
structure Declarations where
  definitions : String → Option DefDecl
  datatypes : String → Option AdtDecl

/-- `BASE`: the maps of a list of declarations, where the last one of a name stays. -/
def declarationsOf (book : List Declaration) : Declarations where
  definitions name := (definitions book).reverse.find? (·.name == name)
  datatypes name := (datatypes book).reverse.find? (·.name == name)

/-- `packed::reference`. -/
def isReference (value : Term) (expected : String) : Bool :=
  match value with
  | .Ref name => name == expected
  | .GpuRef name => name == expected
  | _ => false

/-- `packed::data_kind`. -/
def dataKind (datatype : AdtDecl) : Bool :=
  match datatype.kind with
  | .Typ (.Qua .Many) => true
  | _ => false

/-- `packed::constructors`. -/
def hasConstructors (datatype : AdtDecl) (shapes : List (String × Nat)) : Bool :=
  datatype.constructors.length == shapes.length &&
    (datatype.constructors.zip shapes).all fun (ctor, name, fields) =>
      ctor.name == name && ctor.fields.length == fields &&
        ctor.fields.all (·.quant == Quant.Lone)

/-- `packed::nat_32`, for a number of `Succ`s. -/
def isNat : Nat → Term → Bool
  | 0, .Ctr name args => name == "Zero" && args.isEmpty
  | n + 1, .Ctr name [arg] => name == "Succ" && isNat n arg
  | _, _ => false

/-- The field of a wrapper: `Word` of 32. -/
def isWord32 : Term → Bool
  | .App function argument => isReference function "Word" && isNat 32 argument
  | _ => false

/-- The type of the tail of a `WCon` whose parameter has the number `id`. -/
def isWordTail (id : Nat) : Term → Bool
  | .App function (.Var _ x) => isReference function "Word" && x == id
  | _ => false

/-- A datatype of no parameters with one constructor for a word. -/
def isWrapper (datatype : AdtDecl) (name : String) : Bool :=
  datatype.parameters.isEmpty && hasConstructors datatype [(name, 1)] &&
    datatype.constructors.all fun ctor => ctor.fields.all (isWord32 ·.ty)

/-- The datatypes that `packed::checked_layouts` looks at. -/
def layoutNames : List String := ["Bool", "Nat", "Word.Nil", "Word.Con", "U32", "F32"]

/-- What `packed::checked_layouts` asks of one of them. -/
def hasLayout (name : String) (datatype : AdtDecl) : Bool :=
  datatype.name == name && dataKind datatype &&
    match name with
    | "Bool" => datatype.parameters.isEmpty && hasConstructors datatype [("False", 0), ("True", 0)]
    | "Nat" =>
      datatype.parameters.isEmpty && hasConstructors datatype [("Zero", 0), ("Succ", 1)] &&
        datatype.constructors.all fun ctor => ctor.fields.all (isReference ·.ty "Nat")
    | "Word.Nil" => datatype.parameters.isEmpty && hasConstructors datatype [("WNil", 0)]
    | "Word.Con" =>
      hasConstructors datatype [("WCon", 2)] &&
        match datatype.parameters, datatype.constructors.map (·.fields) with
        | [parameter], [[bit, tail]] =>
          parameter.quant == Quant.None && isReference parameter.ty "Nat" &&
            isReference bit.ty "Bool" && isWordTail parameter.id tail.ty
        | _, _ => false
    | "U32" => isWrapper datatype "U32"
    | "F32" => isWrapper datatype "F32"
    | _ => true

/-- `packed::checked_layouts`. -/
def checkedLayouts (program : Declarations) (origins : String → Bool) : Bool :=
  origins "Word" && layoutNames.all origins &&
    layoutNames.all fun name => (program.datatypes name).any (hasLayout name)

/-- The comparison of the declaration of a name, with the names it notes. -/
def compared (base program : Declarations) (name : String) : Option (List String) :=
  let compare {D : Type} (act : D → Shape.Comparison) (actual : Option D) :=
    actual.bind fun actual =>
      match act actual {} with
      | (true, shape) => some shape.references
      | (false, _) => none
  match base.definitions name, base.datatypes name with
  | some expected, _ => compare (Shape.definition · expected) (program.definitions name)
  | none, some expected => compare (Shape.datatype · expected) (program.datatypes name)
  | none, none => none

theorem isSome_of_compared {base program : Declarations} {name : String} {noted : List String}
    (h : compared base program name = some noted) :
    (base.definitions name).isSome ∨ (base.datatypes name).isSome := by
  unfold compared at h
  cases hdef : base.definitions name with
  | some e => simp
  | none =>
    cases hadt : base.datatypes name with
    | some e => simp
    | none => simp [hdef, hadt] at h

/-- A name that the bundled sources declare is one of their names. -/
theorem mem_names {book : List Declaration} {name : String}
    (h : ((declarationsOf book).definitions name).isSome ∨
      ((declarationsOf book).datatypes name).isSome) : name ∈ book.map Declaration.name := by
  simp only [declarationsOf, List.find?_isSome, List.mem_reverse, beq_iff_eq, definitions,
    datatypes, List.mem_filterMap] at h
  rcases h with ⟨d, ⟨declaration, hmem, hd⟩, rfl⟩ | ⟨d, ⟨declaration, hmem, hd⟩, rfl⟩
  · refine List.mem_map.mpr ⟨declaration, hmem, ?_⟩
    cases declaration with
    | Adt d => cases hd
    | Def d => cases hd; rfl
  · refine List.mem_map.mpr ⟨declaration, hmem, ?_⟩
    cases declaration with
    | Adt d => cases hd; rfl
    | Def d => cases hd

/-- The names that are still to be compared for the first time. -/
def unchecked (book : List Declaration) (checked : List String) : List String :=
  (book.map Declaration.name).filter (· ∉ checked)

theorem length_unchecked_lt {book : List Declaration} {checked : List String} {name : String}
    (hmem : name ∈ book.map Declaration.name) (hnew : name ∉ checked) :
    (unchecked book (name :: checked)).length < (unchecked book checked).length := by
  have hfilter : unchecked book (name :: checked) =
      (unchecked book checked).filter (· ≠ name) := by
    simp only [unchecked, List.filter_filter]
    refine List.filter_congr fun n _ => ?_
    simp [List.mem_cons, not_or]
  rw [hfilter, List.length_filter_lt_length_iff_exists]
  exact ⟨name, List.mem_filter.mpr ⟨hmem, by simpa using hnew⟩, by simp⟩

/-- The loop of `checked_optimizations` for one operation, with the stack of the names still to
look at and the names that have been compared. -/
def admitted (book : List Declaration) (program : Declarations) (origins : String → Bool)
    (pending checked : List String) : Bool :=
  match pending with
  | [] => true
  | name :: pending =>
    if _ : name ∈ checked then admitted book program origins pending checked
    else if origins name then
      match _ : compared (declarationsOf book) program name with
      | some noted => admitted book program origins (noted.reverse ++ pending) (name :: checked)
      | none => false
    else false
termination_by ((unchecked book checked).length, pending.length)
decreasing_by
  · exact Prod.Lex.right _ (by simp)
  · refine Prod.Lex.left _ _ (length_unchecked_lt ?_ (by assumption))
    exact mem_names (isSome_of_compared (by assumption))

section Admitted

variable {book : List Declaration} {program : Declarations} {origins : String → Bool}
  {name : String} {pending checked noted : List String}

theorem admitted_nil : admitted book program origins [] checked = true := by rw [admitted]

/-- A name that has been compared is passed over. -/
theorem admitted_checked (hmem : name ∈ checked) :
    admitted book program origins (name :: pending) checked =
      admitted book program origins pending checked := by
  rw [admitted, dif_pos hmem]

/-- A name that is compared adds the names it notes. -/
theorem admitted_compared (hmem : name ∉ checked) (horigin : origins name = true)
    (hnoted : compared (declarationsOf book) program name = some noted) :
    admitted book program origins (name :: pending) checked =
      admitted book program origins (noted.reverse ++ pending) (name :: checked) := by
  rw [admitted, dif_neg hmem, if_pos horigin]
  split
  · next noted' hnoted' =>
    obtain rfl : noted' = noted := Option.some.inj (hnoted'.symm.trans hnoted)
    rfl
  · next hnone =>
    rw [hnoted] at hnone
    cases hnone

end Admitted

/-- The operations of `nat.rs` in the order of the source. -/
def natOperations : List NatOperation :=
  [.ArrayNew, .Add, .Double, .Mul, .Sub, .Cmp, .Show, .FromU32, .ToU32]

/-- `checked_optimizations`. -/
def checkedOptimizations (book : List Declaration) (program : Declarations)
    (origins : String → Bool) : List NatOperation :=
  if checkedLayouts program origins then
    natOperations.filter fun operation => admitted book program origins [operation.name] []
  else []

/-! ## 5. What the gate lets through -/

/-- The names that the bundled declaration of a name mentions. -/
def mentionsOf (base : Declarations) (name : String) : List String :=
  match base.definitions name, base.datatypes name with
  | some d, _ => definitionMentions d
  | none, some d => datatypeMentions d
  | none, none => []

/-- The names that are reached from one of them through the bundled declarations. -/
inductive Reached (base : Declarations) (start : String) : String → Prop where
  | start : Reached base start start
  | mention {name other : String} (h : Reached base start name)
      (hother : other ∈ mentionsOf base name) : Reached base start other

/-- The declaration of the name in the program is the bundled one up to binders and marks. -/
def Unchanged (base program : Declarations) (name : String) : Prop :=
  (∃ e a, base.definitions name = some e ∧ program.definitions name = some a ∧
    SameDefinition a e ∧ a.foreign = false ∧ a.unsafe_ = false) ∨
  (base.definitions name = none ∧
    ∃ e a, base.datatypes name = some e ∧ program.datatypes name = some a ∧ SameDatatype a e)

/-- What is asked of the numbers of binders.  In the bundled sources no binder is bound again inside
its own scope; the arms of a match may take a parameter under the same number.  In the program no
`let` binds a number twice. -/
structure Numbered (base program : Declarations) : Prop where
  definitions : ∀ name e, base.definitions name = some e → UnshadowedDefinition e
  datatypes : ∀ name e, base.datatypes name = some e → UnshadowedDatatype e
  programDefinitions : ∀ name a, program.definitions name = some a → ApartDefinition a
  programDatatypes : ∀ name a, program.datatypes name = some a → ApartDatatype a

/-- **A comparison that succeeds**: the declaration is unchanged, and all its names are noted. -/
theorem unchanged_of_compared {base program : Declarations} (hnum : Numbered base program)
    {name : String} {noted : List String} (h : compared base program name = some noted) :
    Unchanged base program name ∧ ∀ other ∈ mentionsOf base name, other ∈ noted := by
  unfold compared at h
  cases hdef : base.definitions name with
  | some e =>
    cases hactual : program.definitions name with
    | none => simp [hdef, hactual] at h
    | some a =>
      have hcompares := Shape.compares_definition (hnum.programDefinitions name a hactual)
        (hnum.definitions name e hdef)
      simp only [hdef, hactual, Option.bind_some] at h
      split at h
      · rename_i shape hact
        cases h
        have hresult := hcompares.result []
        rw [hact] at hresult
        obtain ⟨hsame, hsupported⟩ := hresult.mp rfl
        refine ⟨.inl ⟨e, a, hdef, hactual, hsame, hsupported.native⟩, fun other hother => ?_⟩
        have hnoted := hcompares.references [] ⟨hsame, hsupported⟩ other
        rw [hact] at hnoted
        simp only [mentionsOf, hdef] at hother
        exact hnoted.mpr (.inr hother)
      · cases h
  | none =>
    cases hadt : base.datatypes name with
    | none => simp [hdef, hadt] at h
    | some e =>
      cases hactual : program.datatypes name with
      | none => simp [hdef, hadt, hactual] at h
      | some a =>
        obtain ⟨pairs, hcompares⟩ := Shape.compares_datatype
          (hnum.programDatatypes name a hactual) (hnum.datatypes name e hadt)
        simp only [hdef, hadt, hactual, Option.bind_some] at h
        split at h
        · rename_i shape hact
          cases h
          have hresult := hcompares.result []
          rw [hact] at hresult
          have hsame := hresult.mp rfl
          refine ⟨.inr ⟨hdef, e, a, hadt, hactual, hsame.1⟩, fun other hother => ?_⟩
          have hnoted := hcompares.references [] hsame other
          rw [hact] at hnoted
          simp only [mentionsOf, hdef, hadt] at hother
          exact hnoted.mpr (.inr hother)
        · cases h

/-- The name comes from the bundled sources, and its declaration is unchanged. -/
def Sealed (base program : Declarations) (origins : String → Bool) (name : String) : Prop :=
  origins name = true ∧ Unchanged base program name

/-- **The names that were compared** in a loop that ends with `true` are sealed, and closed under
what the bundled declarations mention. -/
theorem admitted_closed {book : List Declaration} {program : Declarations}
    {origins : String → Bool} (hnum : Numbered (declarationsOf book) program)
    {pending checked : List String} (h : admitted book program origins pending checked = true)
    (hchecked : ∀ name ∈ checked, Sealed (declarationsOf book) program origins name ∧
      ∀ other ∈ mentionsOf (declarationsOf book) name, other ∈ checked ∨ other ∈ pending) :
    ∃ closed : List String, (∀ name ∈ checked, name ∈ closed) ∧ (∀ name ∈ pending, name ∈ closed) ∧
      ∀ name ∈ closed, Sealed (declarationsOf book) program origins name ∧
        ∀ other ∈ mentionsOf (declarationsOf book) name, other ∈ closed := by
  induction pending, checked using admitted.induct book program origins with
  | case1 checked =>
    refine ⟨checked, fun _ => id, by simp, fun name hname => ⟨(hchecked name hname).1, ?_⟩⟩
    exact fun other hother => ((hchecked name hname).2 other hother).resolve_right (by simp)
  | case2 checked name pending hmem ih =>
    rw [admitted_checked hmem] at h
    obtain ⟨closed, hold, hnew, hclosed⟩ := ih h fun n hn => ⟨(hchecked n hn).1, fun o ho => by
      rcases (hchecked n hn).2 o ho with ho | ho
      · exact .inl ho
      · rcases List.mem_cons.mp ho with rfl | ho
        · exact .inl hmem
        · exact .inr ho⟩
    refine ⟨closed, hold, fun n hn => ?_, hclosed⟩
    rcases List.mem_cons.mp hn with rfl | hn
    · exact hold n hmem
    · exact hnew n hn
  | case3 checked name pending hmem horigin noted hnoted ih =>
    obtain ⟨hunchanged, hmentions⟩ := unchanged_of_compared hnum hnoted
    rw [admitted_compared hmem horigin hnoted] at h
    obtain ⟨closed, hold, hnew, hclosed⟩ := ih h fun n hn => by
      rcases List.mem_cons.mp hn with rfl | hn
      · exact ⟨⟨horigin, hunchanged⟩, fun o ho => .inr (by simp [hmentions o ho])⟩
      · refine ⟨(hchecked n hn).1, fun o ho => ?_⟩
        rcases (hchecked n hn).2 o ho with ho | ho
        · exact .inl (List.mem_cons_of_mem _ ho)
        · rcases List.mem_cons.mp ho with rfl | ho
          · exact .inl (List.mem_cons_self ..)
          · exact .inr (List.mem_append_right _ ho)
    refine ⟨closed, fun n hn => hold n (List.mem_cons_of_mem _ hn), fun n hn => ?_, hclosed⟩
    rcases List.mem_cons.mp hn with rfl | hn
    · exact hold n (List.mem_cons_self ..)
    · exact hnew n (List.mem_append_right _ hn)
  | case4 checked name pending hmem horigin hnoted =>
    rw [admitted, dif_neg hmem, if_pos horigin] at h
    split at h
    · rename_i noted hnoted'
      rw [hnoted] at hnoted'
      cases hnoted'
    · cases h
  | case5 checked name pending hmem horigin =>
    rw [admitted, dif_neg hmem, if_neg horigin] at h
    cases h

/-- **Optimization gating.**  Two closed terms are taken for one exactly if they are equal up to
binders and marks and have no hole.  An operation is enabled only where every name that is reached
from it through the bundled declarations is sealed and unchanged. -/
theorem optimization_gating :
    (∀ actual expected : Term, (∀ id, ¬FreeIn id actual) → LetsApart actual →
      (binders expected).Nodup →
      ((Shape.term actual expected {}).1 = true ↔
        unmark (nameless actual) = unmark (nameless expected) ∧ Holeless expected)) ∧
    (∀ (book : List Declaration) (program : Declarations) (origins : String → Bool),
      Numbered (declarationsOf book) program →
      ∀ operation ∈ checkedOptimizations book program origins,
      ∀ name, Reached (declarationsOf book) operation.name name →
        origins name = true ∧ Unchanged (declarationsOf book) program name) := by
  constructor
  · intro actual expected hactual hlets hbinders
    have hexact := Shape.linked_nil.exact hlets
      (unshadowed_of_nodup (by simpa using hbinders) : Unshadowed [] expected)
    have hclosed : ClosedIn [] actual := fun id hid => absurd hid (hactual id)
    exact (hexact.result []).trans (and_iff_right hclosed)
  · intro book program origins hnum operation hoperation name hreached
    unfold checkedOptimizations at hoperation
    split at hoperation
    · have hadmitted := (List.mem_filter.mp hoperation).2
      obtain ⟨closed, -, hpending, hclosed⟩ := admitted_closed hnum hadmitted (by simp)
      have hmem : name ∈ closed := by
        induction hreached with
        | start => exact hpending _ (by simp)
        | mention h hother ih => exact (hclosed _ ih).2 _ hother
      exact (hclosed name hmem).1
    · cases hoperation

/-- The body of `Nat.add` as the parser flattens it: both arms take the second parameter under its
number. -/
def addBody : Term :=
  .Mat "Zero" (.Lam "b" 1 (.Var "b" 1))
    (.Mat "Succ" (.Lam "p" 2 (.Lam "b" 1
      (.Ctr "Succ" [.App (.App (.Ref "Nat.add") (.Var "p" 2)) (.Var "b" 1)]))) .Efq)

/-- `Nat.add` of the bundled sources. -/
def addition : DefDecl where
  name := "Nat.add"
  parameters := [⟨.Lone, "a", 0, .Ref "Nat"⟩, ⟨.Lone, "b", 1, .Ref "Nat"⟩]
  completionParameters := none
  ty := .All .Lone "a" 0 (.Ref "Nat") (.All .Lone "b" 1 (.Ref "Nat") (.Ref "Nat"))
  body := some addBody
  unsafe_ := false
  foreign := false

/-- A number as the parser reads it. -/
def numeral : Nat → Term
  | 0 => .Ctr "Zero" []
  | n + 1 => .Ctr "Succ" [numeral n]

/-- The field of a wrapper. -/
def wordField : Binder Term := ⟨.Lone, "data", 0, .App (.Ref "Word") (numeral 32)⟩

/-- Bundled sources of the datatypes with a layout and `Nat.add`. -/
def bundledBook : List Declaration :=
  [.Adt ⟨"Bool", [], .Typ (.Qua .Many), [⟨"False", []⟩, ⟨"True", []⟩]⟩,
    .Adt ⟨"Nat", [], .Typ (.Qua .Many),
      [⟨"Zero", []⟩, ⟨"Succ", [⟨.Lone, "pred", 0, .Ref "Nat"⟩]⟩]⟩,
    .Adt ⟨"Word.Nil", [], .Typ (.Qua .Many), [⟨"WNil", []⟩]⟩,
    .Adt ⟨"Word.Con", [⟨.None, "p", 0, .Ref "Nat"⟩], .Typ (.Qua .Many),
      [⟨"WCon", [⟨.Lone, "head", 1, .Ref "Bool"⟩,
        ⟨.Lone, "tail", 2, .App (.Ref "Word") (.Var "p" 0)⟩]⟩]⟩,
    .Adt ⟨"U32", [], .Typ (.Qua .Many), [⟨"U32", [wordField]⟩]⟩,
    .Adt ⟨"F32", [], .Typ (.Qua .Many), [⟨"F32", [wordField]⟩]⟩,
    .Def addition]

/-- The addition refers to itself and to `Nat`. -/
theorem admitted_bundledBook :
    admitted bundledBook (declarationsOf bundledBook) (fun _ => true) ["Nat.add"] [] = true := by
  have hadd : compared (declarationsOf bundledBook) (declarationsOf bundledBook) "Nat.add" =
      some ["Nat", "Nat.add"] := by decide +kernel
  have hnat : compared (declarationsOf bundledBook) (declarationsOf bundledBook) "Nat" =
      some ["Nat"] := by decide +kernel
  refine (admitted_compared (by decide) rfl hadd).trans ?_
  refine (admitted_checked (by decide)).trans ?_
  refine (admitted_compared (by decide) rfl hnat).trans ?_
  exact (admitted_checked (by decide)).trans admitted_nil

theorem unshadowed_numeral (scope : List Nat) (n : Nat) : Unshadowed scope (numeral n) := by
  induction n with
  | zero => simp [numeral, Unshadowed, UnshadowedArgs]
  | succ n ih => simpa [numeral, Unshadowed, UnshadowedArgs] using ih

theorem letsApart_numeral (n : Nat) : LetsApart (numeral n) := by
  induction n with
  | zero => simp [numeral, LetsApart]
  | succ n ih => simpa [numeral, LetsApart] using ih

theorem numbered_bundledBook :
    Numbered (declarationsOf bundledBook) (declarationsOf bundledBook) where
  definitions name e he := by
    have hmem := List.mem_reverse.1 (List.mem_of_find?_eq_some he)
    obtain rfl : e = addition := List.mem_singleton.1 hmem
    simp [UnshadowedDefinition, UnshadowedTelescope, Unshadowed, UnshadowedArgs, addition, addBody]
  datatypes name e he := by
    have hmem := List.mem_reverse.1 (List.mem_of_find?_eq_some he)
    simp only [bundledBook, datatypes, List.filterMap_cons, List.filterMap_nil, Declaration.adt,
      List.mem_cons, List.not_mem_nil, or_false] at hmem
    rcases hmem with rfl | rfl | rfl | rfl | rfl | rfl <;>
      simp [UnshadowedDatatype, UnshadowedTelescope, Unshadowed, wordField, unshadowed_numeral]
  programDefinitions name a ha := by
    have hmem := List.mem_reverse.1 (List.mem_of_find?_eq_some ha)
    obtain rfl : a = addition := List.mem_singleton.1 hmem
    simp [ApartDefinition, LetsApart, addition, addBody]
  programDatatypes name a ha := by
    have hmem := List.mem_reverse.1 (List.mem_of_find?_eq_some ha)
    simp only [bundledBook, datatypes, List.filterMap_cons, List.filterMap_nil, Declaration.adt,
      List.mem_cons, List.not_mem_nil, or_false] at hmem
    rcases hmem with rfl | rfl | rfl | rfl | rfl | rfl <;>
      simp [ApartDatatype, LetsApart, wordField, letsApart_numeral]

/-- Two identities; and an addition whose two arms bind one number is enabled, and what it refers to
is unchanged. -/
theorem optimization_gating_identity :
    (Shape.term (.Lam "x" 0 (.Var "x" 0)) (.Lam "y" 5 (.Var "y" 5)) {}).1 = true ∧
      binders addBody = [1, 2, 1] ∧
      NatOperation.Add ∈ checkedOptimizations bundledBook (declarationsOf bundledBook)
        (fun _ => true) ∧
      Reached (declarationsOf bundledBook) "Nat.add" "Nat" ∧
      Unchanged (declarationsOf bundledBook) (declarationsOf bundledBook) "Nat" := by
  have hidentity : (Shape.term (.Lam "x" 0 (.Var "x" 0)) (.Lam "y" 5 (.Var "y" 5)) {}).1 = true :=
    (optimization_gating.1 _ _ (by simp [freeIn_lam]) (by simp [LetsApart])
      (by simp [binders])).mpr ⟨rfl, by simp [Holeless]⟩
  have henabled : NatOperation.Add ∈ checkedOptimizations bundledBook (declarationsOf bundledBook)
      (fun _ => true) := by
    rw [checkedOptimizations, if_pos (by decide)]
    exact List.mem_filter.2 ⟨by decide, admitted_bundledBook⟩
  have hreached : Reached (declarationsOf bundledBook) "Nat.add" "Nat" :=
    .mention .start (by decide +kernel)
  exact ⟨hidentity, rfl, henabled, hreached,
    (optimization_gating.2 _ _ _ numbered_bundledBook _ henabled _ hreached).2⟩

/-- A hole is not taken for itself.  A binder whose number a later binder of the `let` has is
taken for that one, where the kernel takes the first. -/
theorem optimization_gating_limited :
    ((Shape.term (.Hole "x") (.Hole "x") {}).1 = false ∧ ∀ id, ¬FreeIn id (.Hole "x")) ∧
    (Shape.term repeatedLet distinctLet {}).1 = true ∧ (binders distinctLet).Nodup ∧
    unmark (nameless repeatedLet) ≠ unmark (nameless distinctLet) := by
  refine ⟨⟨rfl, by rintro id ⟨⟩⟩, rfl, by decide, ?_⟩
  simp [nameless_repeatedLet, nameless_distinctLet, unmark]

end TeamyBend.Runtime
