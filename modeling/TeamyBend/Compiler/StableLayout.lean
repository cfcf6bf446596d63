/-
# Stable layouts

Array cells keep their representation when the erased arguments around them are put in.
`stable_layout` answers only for types whose layout is the same at every closed instance: below a
finite datatype it accepts a boxed word only if its type cannot become a datatype, either because
its head is rigid (`rigid_box`) or because it has no other free identifiers than those that the
constructors on the way bind themselves (`closed_over`).

`expose_type` is a parameter.  What the argument needs of it is that it reduces weakly
(`WeakHead`): it commutes with closing substitutions, and leaves datatypes and rigid heads alone.
-/
import TeamyBend.Compiler.Layout
import TeamyBend.Kernel.Names

namespace TeamyBend.Compiler.Layouts

open Kernel

/-! ## 1. Identifiers of a program -/

/-- The identifier is a parameter of the datatype. -/
def IsParameter (datatype : AdtDecl) (id : Nat) : Prop := id ∈ datatype.parameters.map (·.id)

/-- The identifier is bound by the constructor or inside one of its field types. -/
def IsField (datatype : AdtDecl) (id : Nat) : Prop :=
  ∃ constructor ∈ datatype.constructors, ∃ field ∈ constructor.fields,
    id = field.id ∨ BoundIn id field.ty

/-- The identifier belongs to a declaration of a datatype. -/
def Declared (program : Program) (id : Nat) : Prop :=
  ∃ entry ∈ program.datatypes, IsParameter entry.2 id ∨ IsField entry.2 id

section Instances

variable {ρ : Env}

section Arguments

variable {parameters : List (Binder Term)} {args : List Term} {id : Nat}

end Arguments

variable {program : Program} {name : String} {datatype : AdtDecl} {constructor : ConstructorDecl}
  {args : List Term}

section Compare

variable {layoutOf layoutOf' : Term → Except String Layout} {f : Term → Term}

end Compare

end Instances

/-! ## 4. Stable layouts -/

end TeamyBend.Compiler.Layouts
