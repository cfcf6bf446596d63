/-
# Errors of the kernel and of the runtime

One error type serves checking and execution.  Its diagnostic report and the count of unfilled
laws are presentation only: equality of errors in the source ignores them, and so does the
model.
-/

namespace TeamyBend

/-- `enum FailureKind`. -/
inductive FailureKind where
  | Internal
  | RequestOutOfBand
  | NatOverflow
  | ArrayDepth
  deriving Repr, DecidableEq

/-- `struct KernelError`, with the fields its equality compares. -/
structure KernelError where
  message : String
  kind : FailureKind
  deriving Repr, DecidableEq

namespace KernelError

/-- `KernelError::new`. -/
def new (message : String) : KernelError := ⟨message, .Internal⟩

/-- `KernelError::request_out_of_band`. -/
def requestOutOfBand (message : String) : KernelError := ⟨message, .RequestOutOfBand⟩

/-- `KernelError::nat_overflow`. -/
def natOverflow (message : String) : KernelError := ⟨message, .NatOverflow⟩

/-- `KernelError::array_depth`. -/
def arrayDepth (message : String) : KernelError := ⟨message, .ArrayDepth⟩

/-- `KernelError::unfilled_laws`. -/
def unfilledLaws (names : List String) : KernelError :=
  .new ("unfilled laws: " ++ ", ".intercalate names)

/-- `KernelError::in_definition`. -/
def inDefinition (error : KernelError) (name : String) : KernelError :=
  { error with message := name ++ ": " ++ error.message }

/-- An index the source does not check: Rust would stop the program there. -/
def outOfBounds : KernelError := ⟨"index out of bounds", .Internal⟩

end KernelError

end TeamyBend
