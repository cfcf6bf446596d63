/-
# Layouts of the C backend

`executable_c_layout.rs`: a type is one machine word, or a finite sum whose arms lie over each
other in a vector of words.  The first word of a sum with several arms is the index of its arm, and
a slot that several arms share has the widest kind that any of them stores there.

`expose_type` is a parameter: it is the weak head reduction of the kernel.  The tables that
`Layouts` keeps between calls hold what `cyclic` and `node` return, and are left out.
-/
import TeamyBend.Kernel.Term
import Mathlib.Algebra.Order.Ring.Nat

namespace TeamyBend.Compiler.Layouts

open Kernel

/-! ## 1. Layouts -/

/-- `enum Kind`. -/
inductive Kind where
  | W32
  | W64
  | Box
  deriving Repr, DecidableEq

/-- `struct Field`, over the type of layouts. -/
structure Field (L : Type) where
  offset : Nat
  layout : L

/-- `struct Arm`, over the type of layouts. -/
structure Arm (L : Type) where
  name : String
  fields : List (Field L)

/-- `struct Layout`. -/
inductive Layout where
  | mk (words : List Kind) (arms : Option (List (Arm Layout)))

namespace Layout

def words : Layout → List Kind
  | mk words _ => words

def arms : Layout → Option (List (Arm Layout))
  | mk _ arms => arms

/-- `Layout::word`. -/
def word (kind : Kind) : Layout := mk [kind] none

@[simp] theorem words_mk (words : List Kind) (arms : Option (List (Arm Layout))) :
    (mk words arms).words = words := rfl

@[simp] theorem arms_mk (words : List Kind) (arms : Option (List (Arm Layout))) :
    (mk words arms).arms = arms := rfl

end Layout

namespace Kind

/-- The kind of a word that has to hold both. -/
def widest : Kind → Kind → Kind
  | Box, _ => Box
  | _, Box => Box
  | W64, _ => W64
  | _, W64 => W64
  | W32, W32 => W32

/-- The order of the kinds. -/
def rank : Kind → Nat
  | W32 => 0
  | W64 => 1
  | Box => 2

end Kind

/-- One word of an arm: the vector grows to the index, and the slot gets the widest kind. -/
def store (words : List Kind) (index : Nat) (kind : Kind) : List Kind :=
  let grown := words ++ List.replicate (index + 1 - words.length) .W32
  grown.set index ((grown.getD index .W32).widest kind)

/-- The field behind the tag. -/
def Field.shift (tag : Nat) (field : Field Layout) : Field Layout :=
  { field with offset := field.offset + tag }

/-- The words of one field, stored one after the other. -/
def storeField (tag : Nat) (words : List Kind) (field : Field Layout) : List Kind :=
  (field.layout.words.zipIdx).foldl (fun words k => store words (field.offset + tag + k.2) k.1)
    words

/-- The room for the index of an arm. -/
def tagWords (arms : List (Arm Layout)) : Nat := if arms.length > 1 then 1 else 0

/-- `Layout::pack`. -/
def pack (arms : List (Arm Layout)) : Layout :=
  .mk
    (arms.foldl (fun words arm => arm.fields.foldl (storeField (tagWords arms)) words)
      (List.replicate (tagWords arms) .W32))
    (some (arms.map fun arm => { arm with fields := arm.fields.map (.shift (tagWords arms)) }))

/-! ## 2. The program -/

/-- What the layouts read of `ExecutableProgram`.  The kernel refuses a datatype with two
constructors of one name, and their number is a `usize`. -/
structure Program where
  exposeType : Term → Except String Term
  baseNames : List String
  datatypes : List (String × AdtDecl)
  distinct : ∀ entry ∈ datatypes, (entry.2.constructors.map (·.name)).Nodup
  small : ∀ entry ∈ datatypes, entry.2.constructors.length < 2 ^ 64

variable (program : Program)

/-- `native_word`. -/
def nativeWord (name : String) : Option Kind :=
  if name ∉ program.baseNames then none
  else if name = "U32" ∨ name = "F32" then some .W32
  else if name = "Nat" then some .W64
  else none

/-- `MAX_DEPTH`. -/
def maxDepth : Nat := 256

/-- The error of `check_depth`. -/
def depthError : String := "C layout depth budget exhausted"

/-- The live fields of a datatype in the order of its constructors. -/
def liveFields (datatype : AdtDecl) : List (Binder Term) :=
  (datatype.constructors.flatMap (·.fields)).filter (·.quant ≠ .None)

/-- A search that stops at the first hit and hands on the names it has seen. -/
def anyHit (hits : Term → List String → Except String (Bool × List String)) :
    List Term → List String → Except String (Bool × List String)
  | [], seen => .ok (false, seen)
  | ty :: tys, seen => do
    let (hit, seen) ← hits ty seen
    if hit then .ok (true, seen) else anyHit hits tys seen

mutual

/-- `Layouts::walk_cycle`, with the depth that is left. -/
def walkCycle (root : String) :
    Nat → String → List String → Except String (Bool × List String)
  | 0, _, _ => .error depthError
  | fuel + 1, name, seen =>
    if (nativeWord program name).isSome ∨ (name ∈ program.baseNames ∧ name = "Array") then
      .ok (false, seen)
    else
      match program.datatypes.lookup name with
      | none => .ok (false, seen)
      | some datatype =>
        anyHit (hitsCycle root fuel) ((liveFields datatype).map (·.ty)) seen

/-- `Layouts::hits_cycle`, with the depth that is left. -/
def hitsCycle (root : String) : Nat → Term → List String → Except String (Bool × List String)
  | 0, _, _ => .error depthError
  | fuel + 1, ty, seen => do
    match ← program.exposeType ty with
    | .Adt name args _ =>
      if name = root then .ok (true, seen)
      else
        let (hit, seen) ← anyHit (hitsCycle root fuel) args seen
        if hit then .ok (true, seen)
        else if name ∈ seen then .ok (false, seen)
        else walkCycle root fuel name (name :: seen)
    | _ => .ok (false, seen)

end

/-- `Layouts::cyclic`. -/
def cyclic (name : String) : Except String Bool := do
  let (hit, _) ← walkCycle program name (maxDepth + 1) name []
  .ok hit

/-- `rigid_box`. -/
def rigidBox : Term → Bool
  | .All .. | .Typ _ | .Qnt | .Eql .. => true
  | _ => false

mutual

/-- `closed_over`. -/
def closedOver (fixed : List Nat) : Term → Bool
  | .Var _ id => decide (id ∈ fixed)
  | .Typ value => closedOver fixed value
  | .Min left right | .App left right | .Ann left right =>
    closedOver fixed left && closedOver fixed right
  | .All _ _ id domain body => closedOver fixed domain && closedOver (id :: fixed) body
  | .Lam _ id body => closedOver (id :: fixed) body
  | .Adt _ args _ | .Ctr _ args => closedOverArgs fixed args
  | .Mat _ arm fallback => closedOver fixed arm && closedOver fixed fallback
  | .Eql left right ty => closedOver fixed left && closedOver fixed right && closedOver fixed ty
  | .Rwt evidence motive body =>
    closedOver fixed evidence && closedOver fixed motive && closedOver fixed body
  | .Let bindings body =>
    closedOverBindings fixed bindings && closedOver (bindings.map (·.id) ++ fixed) body
  | .Hole _ => false
  | .Ref _ | .GpuRef _ | .Qnt | .Qua _ | .Efq | .Rfl => true

/-- `closed_over` on an argument list. -/
def closedOverArgs (fixed : List Nat) : List Term → Bool
  | [] => true
  | a :: args => closedOver fixed a && closedOverArgs fixed args

/-- `closed_over` on the values of a `let`. -/
def closedOverBindings (fixed : List Nat) : List (LetBinding Term) → Bool
  | [] => true
  | ⟨_, _, _, value⟩ :: bindings => closedOver fixed value && closedOverBindings fixed bindings

end

/-! ## 3. The layout of a type -/

/-- `Layouts::fields`, with the layout of a type and the offset of the next field. -/
def fieldsFrom (layoutOf : Term → Except String Layout) :
    List Term → Nat → Except String (List (Field Layout))
  | [], _ => .ok []
  | ty :: types, offset => do
    let layout ← layoutOf ty
    if offset + layout.words.length > 255 then .error "C layout: an arity over 255"
    else
      let fields ← fieldsFrom layoutOf types (offset + layout.words.length)
      .ok (⟨offset, layout⟩ :: fields)

/-- The types of the live fields of a constructor at the arguments of its datatype. -/
def fieldTypes (datatype : AdtDecl) (args : List Term) (constructor : ConstructorDecl) :
    List Term :=
  (constructor.fields.filter (·.quant ≠ .None)).map fun field =>
    (datatype.parameters.zip args).foldl (fun ty p => substitute p.1.id p.2 ty) field.ty

/-- One arm for each constructor. -/
def armsOf (layoutOf : ConstructorDecl → Term → Except String Layout) (datatype : AdtDecl)
    (args : List Term) : List ConstructorDecl → Except String (List (Arm Layout))
  | [] => .ok []
  | constructor :: constructors => do
    let fields ← fieldsFrom (layoutOf constructor) (fieldTypes datatype args constructor) 0
    let arms ← armsOf layoutOf datatype args constructors
    .ok (⟨constructor.name, fields⟩ :: arms)

/-- A constructor adds its own binders to those that stay abstract. -/
def constructorFixed (fixed : Option (List Nat)) (constructor : ConstructorDecl) :
    Option (List Nat) :=
  fixed.map fun fixed => constructor.fields.map (·.id) ++ fixed

/-- `Layouts::layout_at` at a datatype. -/
def datatypeLayout (layoutOf : ConstructorDecl → Term → Except String Layout) (name : String)
    (args : List Term) : Except String Layout :=
  match nativeWord program name with
  | some word => .ok (.word word)
  | none => do
    if name ∈ program.baseNames ∧ (name = "Array" ∨ name = "IO.OP") then .ok (.word .Box)
    else if ← cyclic program name then .ok (.word .Box)
    else
      match program.datatypes.lookup name with
      | none => .ok (.word .Box)
      | some datatype =>
        if args.length ≠ datatype.parameters.length then
          .error s!"C layout: datatype parameter count differs for {name}"
        else do
          let arms ← armsOf layoutOf datatype args datatype.constructors
          .ok (pack arms)

/-- `Layouts::layout_at`, with the depth that is left. -/
def layoutAt : Nat → Option (List Nat) → Term → Except String Layout
  | 0, _, _ => .error depthError
  | fuel + 1, fixed, ty => do
    match ← program.exposeType ty with
    | .Adt name args _ =>
      datatypeLayout program (fun constructor => layoutAt fuel (constructorFixed fixed constructor))
        name args
    | ty =>
      -- Only the stable layout asks whether a boxed word could become something else.
      if fixed.elim true fun fixed => rigidBox ty || closedOver fixed ty then .ok (.word .Box)
      else .error "C Array has an unspecialized element type"

/-- `Layouts::layout`. -/
def layout (ty : Term) : Except String Layout := layoutAt program (maxDepth + 1) none ty

/-- **At a name**, the layout is one word whatever the arguments are, or it is a sum. -/
theorem datatypeLayout_by_name (name : String) :
    (∃ kind : Except String Kind,
      ∀ layoutOf args, datatypeLayout program layoutOf name args = kind.map .word) ∨
      ∃ datatype, program.datatypes.lookup name = some datatype ∧
        ∀ layoutOf args, datatypeLayout program layoutOf name args =
          if args.length ≠ datatype.parameters.length then
            .error s!"C layout: datatype parameter count differs for {name}"
          else (armsOf layoutOf datatype args datatype.constructors).map pack := by
  cases hnative : nativeWord program name with
  | some kind =>
    refine .inl ⟨.ok kind, fun _ _ => ?_⟩
    rw [datatypeLayout, hnative]
    rfl
  | none =>
    by_cases hboxed : name ∈ program.baseNames ∧ (name = "Array" ∨ name = "IO.OP")
    · refine .inl ⟨.ok .Box, fun _ _ => ?_⟩
      rw [datatypeLayout, hnative, if_pos hboxed]
      rfl
    · cases hcyclic : cyclic program name with
      | error message =>
        refine .inl ⟨.error message, fun _ _ => ?_⟩
        rw [datatypeLayout, hnative, if_neg hboxed, hcyclic]
        rfl
      | ok cyclic =>
        cases cyclic with
        | true =>
          refine .inl ⟨.ok .Box, fun _ _ => ?_⟩
          rw [datatypeLayout, hnative, if_neg hboxed, hcyclic]
          rfl
        | false =>
          cases hlookup : program.datatypes.lookup name with
          | none =>
            refine .inl ⟨.ok .Box, fun _ _ => ?_⟩
            rw [datatypeLayout, hnative, if_neg hboxed, hcyclic, hlookup]
            rfl
          | some datatype =>
            refine .inr ⟨datatype, rfl, fun layoutOf args => ?_⟩
            rw [datatypeLayout, hnative, if_neg hboxed, hcyclic, hlookup]
            rfl

variable {program} in
/-- **What a layout rests on**: the head of the type, which is a datatype or gives a boxed word. -/
theorem layoutAt_cases {fuel : Nat} {fixed : Option (List Nat)} {ty : Term} {layout : Layout}
    (h : layoutAt program (fuel + 1) fixed ty = .ok layout) :
    ∃ exposed, program.exposeType ty = .ok exposed ∧
      ((∃ name args excluded, exposed = .Adt name args excluded ∧
        datatypeLayout program
          (fun constructor => layoutAt program fuel (constructorFixed fixed constructor))
          name args = .ok layout) ∨
      ((∀ name args excluded, exposed ≠ .Adt name args excluded) ∧
        (∀ ids, fixed = some ids → rigidBox exposed ∨ closedOver ids exposed) ∧
        layout = .word .Box)) := by
  rw [layoutAt] at h
  cases hexposed : program.exposeType ty with
  | error message => simp [hexposed, bind, Except.bind] at h
  | ok exposed =>
    simp only [hexposed, bind, Except.bind] at h
    refine ⟨exposed, rfl, ?_⟩
    split at h
    · exact .inl ⟨_, _, _, rfl, h⟩
    · next hother =>
      split at h
      · next hboxed =>
        cases h
        refine .inr ⟨hother, fun ids hids => ?_, rfl⟩
        subst hids
        simpa using hboxed
      · cases h

end TeamyBend.Compiler.Layouts
