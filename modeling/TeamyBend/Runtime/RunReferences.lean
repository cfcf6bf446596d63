/-
# The evaluator follows no broken reference

What each operation of the evaluator does with references: it refers to the thunks and scopes it was
given, or to ones that it made.  A turn may collect first; then what the run refers to is a root.
-/
import TeamyBend.Runtime.References

namespace TeamyBend.Runtime.Evaluator

open Kernel (Term LetBinding)
open Library (Finishes Reaches)

attribute [local simp] Thunk.nodes Value.nodes NumericFrame.nodes WordTarget.nodes Frame.nodes
  Frame.Fits WordTarget.Fits

/-! ## 1. Suspending -/

section Suspension

variable {setting : Setting} {m m' : Machine} {id : ThunkId} {scope : EnvId}

/-- A binding that is found in the scope is occupied. -/
theorem availableBindingLoop_safe {gas binder : Nat} (hm : m.Sane) :
    Safe m (availableBindingLoop gas scope binder) fun found m' =>
      ∀ id, found = some id → m'.Occupied (.Thunk id) := by
  induction gas generalizing m scope with
  | zero => exact .pure hm fun _ h => nomatch h
  | succ gas ih =>
    refine .bind (tick_safe hm) fun _ m' hm' _ _ => .get_bind ?_
    split
    · exact .pure hm' fun _ h => nomatch h
    · next current hat =>
      split
      · next binder' target hfind =>
        refine .pure hm' fun id h => ?_
        cases h
        exact hm'.binding hat hfind
      · split
        · exact .pure hm' fun _ h => nomatch h
        · exact ih hm'

/-- The search for a word only spends steps. -/
theorem availableWordLoop_spent {gas : Nat} {sought : Sought} :
    Finishes (availableWordLoop gas sought) m (fun _ m' => Spent m m')
      (fun err _ => err = exhausted) := by
  induction gas generalizing m sought with
  | zero => exact .pure (.refl m)
  | succ gas ih =>
    refine .bind tick_spent fun _ m' hfirst => .get_bind ?_
    split
    · exact .pure hfirst
    · exact ih.imp fun _ _ hrest => hfirst.trans hrest

theorem availableWords_spent {arguments : List Term} :
    Finishes (availableWords scope arguments) m (fun _ m' => Spent m m')
      (fun err _ => err = exhausted) := by
  induction arguments generalizing m with
  | nil => exact .pure (.refl m)
  | cons argument arguments ih =>
    refine .bind availableWordLoop_spent fun found m' hfirst => ?_
    split
    · exact .pure hfirst
    · refine .bind (ih.imp fun _ _ hrest => hfirst.trans hrest) fun words m'' hboth => ?_
      split
      · exact .pure hboth
      · exact .pure hboth

theorem availableNumeric_spent {expression : Term} :
    Finishes (availableNumeric setting expression scope) m (fun _ m' => Spent m m')
      (fun err _ => err = exhausted) := by
  unfold availableNumeric
  refine .ite (fun _ => .pure (.refl m)) fun _ => ?_
  split
  · exact .ite (fun _ => availableWordLoop_spent) fun _ => .pure (.refl m)
  · split
    · exact .pure (.refl m)
    · split
      · exact .pure (.refl m)
      · refine .bind availableWords_spent fun words m' hfirst => ?_
        split
        · exact .pure hfirst
        · exact .pure hfirst

theorem suspend_safe {expression : Term} (hm : m.Sane) (hscope : m.Occupied (.Environment scope)) :
    Safe m (suspend setting expression scope) fun id m' => m'.Occupied (.Thunk id) := by
  have hfirst : Safe m (availableNumeric setting expression scope) fun _ _ => True :=
    .of_spent hm (availableNumeric_spent.imp fun _ _ h => ⟨h, trivial⟩) fun _ _ h => h ▸ by decide
  refine .bind hfirst fun found m' hm' hext _ => ?_
  split
  · exact allocate_safe hm' (by simp)
  · exact allocate_safe hm' (by simpa using hext.occupied _ hscope)

theorem Machine.Sane.global (hm : m.Sane) {name : String} (h : m.global name = some id) :
    m.Occupied (.Thunk id) := by
  obtain ⟨before, after, hglobals, -⟩ := List.lookup_eq_some_iff.1 h
  exact hm.globals (name, id) (hglobals ▸ List.mem_append_right _ List.mem_cons_self)

theorem Machine.Sane.define (hm : m.Sane) {name : String} (hid : m.Occupied (.Thunk id)) :
    ({ m with globals := (name, id) :: m.globals } : Machine).Sane :=
  ⟨hm.edges, hm.root, List.forall_mem_cons.2 ⟨hid, hm.globals⟩, hm.callers, hm.hosts,
    hm.freeThunks, hm.freeEnvironments⟩

theorem suspendReference_safe {expression : Term} {name : String} (hm : m.Sane) :
    Safe m (suspendReference setting expression name) fun id m' => m'.Occupied (.Thunk id) := by
  refine .get_bind ?_
  split
  · next target hglobal => exact .pure hm (hm.global hglobal)
  · exact allocate_safe hm (by simpa using hm.root)

/-- An expression in an occupied scope becomes an occupied thunk. -/
theorem expression_safe {term : Term} (hm : m.Sane) (hscope : m.Occupied (.Environment scope)) :
    Safe m (expression setting term scope) fun id m' => m'.Occupied (.Thunk id) := by
  refine .ite (fun _ => ?_) fun _ => suspend_safe hm hscope
  split
  · refine .bind (availableBindingLoop_safe hm) fun found m' hm' hext hfound => ?_
    split
    · next target => exact .pure hm' (hfound target rfl)
    · exact suspend_safe hm' (hext.occupied _ hscope)
  · exact suspendReference_safe hm
  · exact suspendReference_safe hm
  · exact suspend_safe hm hscope

/-- So do the expressions of a list. -/
theorem expressions_safe {terms : List Term} (hm : m.Sane)
    (hscope : m.Occupied (.Environment scope)) :
    Safe m (expressions setting scope terms) fun ids m' => m'.Holds (ids.map .Thunk) := by
  induction terms generalizing m with
  | nil => exact .pure hm (by simp)
  | cons term terms ih =>
    refine .bind (expression_safe hm hscope) fun id m₁ hm₁ hext₁ hid => ?_
    refine .bind (ih hm₁ (hext₁.occupied _ hscope)) fun ids m₂ hm₂ hext₂ hids => ?_
    exact .pure hm₂ (by simpa using ⟨hext₂.occupied _ hid, hids⟩)

theorem proper_undefined (name : String) :
    Proper (.new ("undefined runtime reference " ++ name)) := by
  intro hmem
  have hother : ∀ message ∈ broken, message.toList.head? ≠ some 'u' := by decide
  refine hother _ hmem ?_
  show ("undefined runtime reference " ++ name).toList.head? = some 'u'
  rw [String.toList_append]
  rfl

/-- A name is resolved to an occupied thunk. -/
theorem resolve_safe {name : String} (hm : m.Sane) :
    Safe m (resolve setting name) fun id m' => m'.Occupied (.Thunk id) := by
  unfold resolve
  dsimp only
  split
  · exact allocate_safe hm (by simp)
  split
  · exact allocate_safe hm (by simp)
  split
  · exact allocate_safe hm (by simp)
  refine .ite (fun _ => allocate_safe hm (by simp)) fun _ => ?_
  split
  · split
    · exact .fail (by decide)
    · exact expression_safe hm hm.root
  · refine .ite (fun _ => allocate_safe hm (by simp)) fun _ => .fail (proper_undefined name)

theorem reference_safe {name : String} (hm : m.Sane) :
    Safe m (reference setting name) fun id m' => m'.Occupied (.Thunk id) := by
  refine .get_bind ?_
  split
  · next id hglobal => exact .pure hm (hm.global hglobal)
  · refine .bind (resolve_safe hm) fun id m' hm' _ hid => ?_
    exact Finishes.modify_bind (Finishes.pure ⟨⟨hm'.define hid, ⟨fun _ h => h, rfl⟩⟩, hid⟩)

/-- Applications are built from the function outwards. -/
theorem applications_safe {function : ThunkId} {arguments : List ThunkId} (hm : m.Sane)
    (hfunction : m.Occupied (.Thunk function)) (harguments : m.Holds (arguments.map .Thunk)) :
    Safe m (applications setting function arguments) fun id m' => m'.Occupied (.Thunk id) := by
  induction arguments generalizing m function with
  | nil => exact .pure hm hfunction
  | cons argument arguments ih =>
    obtain ⟨hargument, hrest⟩ := holds_cons.1 harguments
    refine .bind (allocate_safe hm (by simpa using ⟨hfunction, hargument⟩))
      fun function m' hm' hext hfunction => ih hm' hfunction (hrest.mono hext)

theorem readyConstructor_safe {name : String} {fields : List ThunkId} (hm : m.Sane)
    (hfields : m.Holds (fields.map .Thunk)) :
    Safe m (readyConstructor setting name fields) fun id m' => m'.Occupied (.Thunk id) :=
  allocate_safe hm hfields

/-- The constructors of a word are built from its last bit on. -/
theorem wordSpine_safe {result : UInt32} {left : Nat} {word : ThunkId} (hm : m.Sane)
    (hword : m.Occupied (.Thunk word)) :
    Safe m (wordSpine setting result left word) fun id m' => m'.Occupied (.Thunk id) := by
  induction left generalizing m word with
  | zero => exact .pure hm hword
  | succ left ih =>
    refine .bind (readyConstructor_safe hm (by simp)) fun head m₁ hm₁ hext₁ hhead => ?_
    refine .bind (readyConstructor_safe hm₁ (by simpa using ⟨hhead, hext₁.occupied _ hword⟩))
      fun word m₂ hm₂ _ hword => ih hm₂ hword

/-- A word is wrapped as a value of its type. -/
theorem numericWordValue_safe {wrapper : String} {result : UInt32} (hm : m.Sane) :
    Safe m (numericWordValue setting wrapper result) fun id m' => m'.Occupied (.Thunk id) := by
  refine .ite (fun _ => ?_) fun _ => ?_
  · split
    · exact .fail (by decide)
    · exact allocate_safe hm (by simp)
  · refine .bind (readyConstructor_safe hm (by simp)) fun word m₁ hm₁ _ hword => ?_
    refine .bind (wordSpine_safe hm₁ hword) fun word m₂ hm₂ _ hword => ?_
    exact readyConstructor_safe hm₂ (by simpa using hword)

/-- The characters of a text are built from the last one on. -/
theorem textSpine_safe {bytes : List Nat} {result : ThunkId} (hm : m.Sane)
    (hresult : m.Occupied (.Thunk result)) :
    Safe m (textSpine setting bytes result) fun id m' => m'.Occupied (.Thunk id) := by
  induction bytes generalizing m result with
  | nil => exact .pure hm hresult
  | cons byte bytes ih =>
    refine .bind (tick_safe hm) fun _ m₁ hm₁ hext₁ _ => ?_
    refine .bind (numericWordValue_safe hm₁) fun code m₂ hm₂ hext₂ hcode => ?_
    refine .bind (readyConstructor_safe hm₂ (by simpa using hcode))
      fun character m₃ hm₃ hext₃ hcharacter => ?_
    have hresult₃ := ((hext₁.trans hext₂).trans hext₃).occupied _ hresult
    refine .bind (readyConstructor_safe hm₃ (by simpa using ⟨hcharacter, hresult₃⟩))
      fun result m₄ hm₄ _ hresult => ih hm₄ hresult

end Suspension

/-! ## 2. Numeric operations -/

/-- A run goes on at a thunk. -/
def Goes (next : ThunkId × List Frame) (m : Machine) : Prop :=
  m.Occupied (.Thunk next.1) ∧ m.Carries next.2

section Numeric

variable {setting : Setting} {m m' : Machine} {id argument : ThunkId} {frames : List Frame}
  {arguments : List ThunkId}

theorem goes (hframes : m.Carries frames) {x : M ThunkId}
    (hx : Safe m x fun id m' => m'.Occupied (.Thunk id)) :
    Safe m (do let id ← x; return (id, frames)) Goes :=
  .bind hx fun _ _ hm' hext hid => .pure hm' ⟨hid, hframes.mono hext⟩

theorem demandNumeric_safe {frame : NumericFrame} (hm : m.Sane) (hid : m.Occupied (.Thunk id))
    (hframe : m.Holds frame.nodes ∧ (Frame.Numeric frame).Fits) (hframes : m.Carries frames) :
    Safe m (demandNumeric setting frame id frames) Goes :=
  .bind (push_safe hm hframes hframe) fun _ _ hm' hext hframes' =>
    .pure hm' ⟨hext.occupied _ hid, hframes'⟩

theorem holds_concat :
    m.Holds ((arguments ++ [argument]).map .Thunk) ↔
      m.Holds (arguments.map .Thunk) ∧ m.Occupied (.Thunk argument) := by
  simp

theorem Machine.Holds.get {ids : List ThunkId} (h : m.Holds (ids.map .Thunk)) {i : Nat}
    (hi : ids[i]? = some id) : m.Occupied (.Thunk id) :=
  h _ (List.mem_map.2 ⟨id, List.mem_of_getElem? hi, rfl⟩)

/-- A numeric operation takes one more argument, or starts with the last one. -/
theorem applyNumeric_safe {operation : NumericOperation} (hm : m.Sane)
    (harguments : m.Holds (arguments.map .Thunk)) (hargument : m.Occupied (.Thunk argument))
    (hframes : m.Carries frames) :
    Safe m (applyNumeric setting operation arguments argument frames) Goes := by
  have hall := holds_concat.2 ⟨harguments, hargument⟩
  unfold applyNumeric
  dsimp only
  generalize hargs : arguments ++ [argument] = all at hall ⊢
  refine .ite (fun _ => goes hframes (allocate_safe hm hall)) fun _ =>
    .ite (fun _ => .fail_bind (by decide)) fun harity => ?_
  have harity := not_not.1 harity
  split
  · exact absurd hargs (by simp)
  · next ordinary first rest =>
    exact demandNumeric_safe hm (hall _ (by simp)) ⟨hall, harity, by simp⟩ hframes
  · next first rest =>
    exact demandNumeric_safe hm (hall _ (by simp)) (by simp) hframes
  · next first rest _ _ =>
    exact demandNumeric_safe hm (hall _ (by simp)) ⟨hall, harity, by simp⟩ hframes

theorem ordinaryNumeric_safe {operation : PureOptimization} (hm : m.Sane)
    (harguments : m.Holds (arguments.map .Thunk)) :
    Safe m (ordinaryNumeric setting operation arguments) fun id m' => m'.Occupied (.Thunk id) := by
  unfold ordinaryNumeric
  split
  · exact .fail (by decide)
  · exact .bind (expression_safe hm hm.root) fun function m' hm' hext hfunction =>
      applications_safe hm' hfunction (harguments.mono hext)

/-- A word operation has all its operands when it is computed. -/
theorem wordResult_safe {operation : NumericOperation} {words : List UInt32} (hm : m.Sane)
    (hwords : words.length = operation.arity) :
    Safe m (wordResult setting operation words) fun _ _ => True := by
  unfold wordResult
  split
  · exact .pure hm trivial
  · next operation =>
    have hlength : words.length = operation.arity := hwords
    rw [resultOf, dif_pos hlength]
    exact .pure hm trivial

/-- So has every other numeric operation. -/
theorem numericResult_safe {operation : NumericOperation} {words : List UInt32} (hm : m.Sane)
    (hwords : words.length = operation.arity) :
    Safe m (numericResult setting operation words) fun id m' => m'.Occupied (.Thunk id) := by
  unfold numericResult
  split
  · cases hwords
  · refine .bind (readyConstructor_safe hm (by simp)) fun string m' hm' _ hstring => ?_
    exact textSpine_safe hm' hstring
  · refine .bind (wordResult_safe hm hwords) fun result m' hm' _ _ => ?_
    refine .ite (fun _ => readyConstructor_safe hm' (by simp)) fun _ => ?_
    exact numericWordValue_safe hm'

theorem readResult_safe {text : String} (hm : m.Sane) :
    Safe m (readResult setting text) fun id m' => m'.Occupied (.Thunk id) := by
  unfold readResult
  split
  · refine .bind (numericWordValue_safe hm) fun value m' hm' _ hvalue => ?_
    exact readyConstructor_safe hm' (by simpa using hvalue)
  · exact readyConstructor_safe hm (by simp)

/-- The target of a word refers to occupied slots, and its indices fit. -/
def Machine.Aims (m : Machine) (target : WordTarget) : Prop :=
  m.Holds target.nodes ∧ target.Fits

/-- A word goes to the constructor or the operation that waits for it. -/
theorem numericWord_safe {target : WordTarget} {word : UInt32} (hm : m.Sane)
    (htarget : m.Aims target) (hframes : m.Carries frames) :
    Safe m (numericWord setting target word frames) Goes := by
  obtain ⟨hnodes, hfits⟩ := htarget
  unfold numericWord
  split
  · next state =>
    obtain ⟨harity, hlt⟩ := hfits
    have hlength : (state.words ++ [word]).length = state.words.length + 1 := by simp
    dsimp only
    refine .ite (fun hfull => goes hframes (numericResult_safe hm (hfull.trans harity)))
      fun hmore => ?_
    split
    · next hout => exact absurd (List.getElem?_eq_none_iff.1 hout) (by omega)
    · next next hnext =>
      have hroom : (state.words ++ [word]).length < state.arguments.length := by omega
      exact demandNumeric_safe hm (Machine.Holds.get hnodes hnext) ⟨hnodes, harity, hroom⟩ hframes
  · next text tail =>
    have htail : m.Occupied (.Thunk tail) := hnodes _ (by simp)
    split
    · exact .fail (by decide)
    · exact .ite (fun _ => .fail_bind (by decide)) fun _ =>
        demandNumeric_safe hm htail (by simp) hframes

/-- A constructor gives the numeric frame its next bit. -/
theorem numericConstructorStep_safe {frame : NumericFrame} {name : String}
    {fields : List ThunkId} (hm : m.Sane)
    (hframe : m.Holds frame.nodes ∧ (Frame.Numeric frame).Fits)
    (hfields : m.Holds (fields.map .Thunk)) (hframes : m.Carries frames) :
    Safe m (numericConstructorStep setting frame name fields frames) Goes := by
  obtain ⟨hnodes, hfits⟩ := hframe
  unfold numericConstructorStep
  split
  · exact goes hframes (ordinaryNumeric_safe hm hnodes)
  · next target =>
    split
    · exact .ite (fun _ => demandNumeric_safe hm (hfields _ (by simp)) ⟨hnodes, hfits⟩ hframes)
        fun _ => .fail (by decide)
    · exact .fail (by decide)
  · next target bit word =>
    refine .ite (fun _ => .ite (fun _ => numericWord_safe hm ⟨hnodes, hfits⟩ hframes)
      fun _ => .fail (by decide)) fun _ => ?_
    split
    · next head tail =>
      have htail : m.Occupied (.Thunk tail) := hfields _ (by simp)
      refine .ite (fun _ => demandNumeric_safe hm (hfields _ (by simp))
        ⟨holds_append.2 ⟨hnodes, by simpa using htail⟩, hfits⟩ hframes) fun _ => .fail (by decide)
    · exact .fail (by decide)
  · next target bit word tail =>
    obtain ⟨hnodes, htail⟩ := holds_append.1 hnodes
    have htail : m.Occupied (.Thunk tail) := htail _ (by simp)
    refine .ite (fun _ => .fail (by decide)) fun _ => ?_
    exact .ite (fun _ => demandNumeric_safe hm htail ⟨hnodes, hfits⟩ hframes) fun _ =>
      .ite (fun _ => demandNumeric_safe hm htail ⟨hnodes, hfits⟩ hframes) fun _ =>
        .fail (by decide)
  · split
    · exact .ite (fun _ => goes hframes (readResult_safe hm)) fun _ => .fail (by decide)
    · next head tail =>
      have htail : m.Occupied (.Thunk tail) := hfields _ (by simp)
      exact .ite (fun _ => demandNumeric_safe hm (hfields _ (by simp)) (by simpa using htail)
        hframes) fun _ => .fail (by decide)
    · exact .fail (by decide)
  · split
    · exact .ite (fun _ => demandNumeric_safe hm (hfields _ (by simp)) ⟨hnodes, trivial⟩ hframes)
        fun _ => .fail (by decide)
    · exact .fail (by decide)

/-- A value is taken by the numeric frame that waits for it. -/
theorem numericStep_safe {frame : NumericFrame} {value : Value} (hm : m.Sane)
    (hframe : m.Holds frame.nodes ∧ (Frame.Numeric frame).Fits) (hvalue : m.Holds value.nodes)
    (hframes : m.Carries frames) : Safe m (numericStep setting frame value frames) Goes := by
  unfold numericStep
  split
  · next state bits =>
    obtain ⟨hnodes, harity, hlt⟩ := hframe
    have hlength : (state.words ++ [bits]).length = state.words.length + 1 := by simp
    dsimp only
    refine .ite (fun hfull => goes hframes (numericResult_safe hm (hfull.trans harity)))
      fun hmore => ?_
    split
    · next hout => exact absurd (List.getElem?_eq_none_iff.1 hout) (by omega)
    · next next hnext =>
      have hroom : (state.words ++ [bits]).length < state.arguments.length := by omega
      exact demandNumeric_safe hm (Machine.Holds.get hnodes hnext) ⟨hnodes, harity, hroom⟩ hframes
  · exact goes hframes (ordinaryNumeric_safe hm hframe.1)
  · exact .ite (fun _ => numericWord_safe hm hframe hframes) fun _ => .fail (by decide)
  · exact .ite (fun _ => numericWord_safe hm hframe hframes) fun _ => .fail (by decide)
  · exact numericConstructorStep_safe hm hframe hvalue hframes
  · exact .fail (by decide)

end Numeric

/-! ## 3. Operations on naturals -/

section Naturals

variable {setting : Setting} {m m' : Machine} {id argument : ThunkId} {frames : List Frame}
  {arguments : List ThunkId} {state : Evaluation}

theorem prefixCount_safe {count : Nat} (hm : m.Sane) :
    Safe m (prefixCount count) fun _ _ => True :=
  .ite (fun _ => .fail (by decide)) fun _ => .pure hm trivial

theorem natPrefix_safe {count : Nat} {tail : ThunkId} (hm : m.Sane)
    (htail : m.Occupied (.Thunk tail)) :
    Safe m (natPrefix setting count tail) fun id m' => m'.Occupied (.Thunk id) := by
  refine .ite (fun _ => .fail (by decide)) fun _ => .ite (fun _ => .pure hm htail) fun _ => ?_
  refine .ite (fun _ => ?_) fun _ => allocate_safe hm (by simpa using htail)
  refine .bind (allocate_safe hm (by simpa using htail)) fun tail' m' hm' _ htail' => ?_
  exact allocate_safe hm' (by simpa using htail')

theorem nat_safe {value : Nat} (hm : m.Sane) :
    Safe m (nat setting value) fun id m' => m'.Occupied (.Thunk id) :=
  .ite (fun _ => .fail (by decide)) fun _ => .ite (fun _ => .fail (by decide)) fun _ =>
    allocate_safe hm (by simp)

theorem deferredNat_safe {operation : NatOperation} (hm : m.Sane)
    (harguments : m.Holds (arguments.map .Thunk)) :
    Safe m (deferredNat setting operation arguments) fun id m' => m'.Occupied (.Thunk id) :=
  .bind (reference_safe hm) fun _ _ hm' hext hfunction =>
    applications_safe hm' hfunction (harguments.mono hext)

/-- Its body is entered with its arguments. -/
theorem ordinaryNat_safe {operation : NatOperation} (hm : m.Sane)
    (harguments : m.Holds (arguments.map .Thunk)) :
    Safe m (ordinaryNat setting operation arguments) fun id m' => m'.Occupied (.Thunk id) := by
  unfold ordinaryNat
  split
  · exact .fail (by decide)
  · exact .bind (expression_safe hm hm.root) fun function m' hm' hext hfunction =>
      applications_safe hm' hfunction (harguments.mono hext)

/-- A compact value is unpacked as a constructor with occupied fields. -/
theorem constructorValue_safe {value : Value} (hm : m.Sane) (hvalue : m.Holds value.nodes) :
    Safe m (constructorValue setting value) fun made m' => m'.Holds (made.2.map .Thunk) := by
  unfold constructorValue
  split
  · next count tail =>
    have htail : m.Occupied (.Thunk tail) := hvalue _ (by simp)
    refine .bind (tick_safe hm) fun _ m₁ hm₁ hext₁ _ => ?_
    refine .bind (prefixCount_safe hm₁) fun count m₂ hm₂ hext₂ _ => ?_
    refine .bind (natPrefix_safe hm₂ ((hext₁.trans hext₂).occupied _ htail))
      fun tail m₃ hm₃ _ htail => .pure hm₃ (by simpa using htail)
  · exact .pure hm hvalue
  · refine .bind (tick_safe hm) fun _ m₁ hm₁ _ _ => .ite (fun _ => .pure hm₁ (by simp)) fun _ => ?_
    exact .bind (nat_safe hm₁) fun tail m₂ hm₂ _ htail => .pure hm₂ (by simpa using htail)
  · refine .bind (tick_safe hm) fun _ m₁ hm₁ _ _ => ?_
    exact .bind (allocate_safe hm₁ (by simp)) fun word m₂ hm₂ _ hword =>
      .pure hm₂ (by simpa using hword)
  · refine .bind (tick_safe hm) fun _ m₁ hm₁ _ _ => .ite (fun _ => .fail (by decide)) fun _ =>
      .ite (fun _ => .pure hm₁ (by simp)) fun _ => ?_
    refine .bind (readyConstructor_safe hm₁ (by simp)) fun head m₂ hm₂ _ hhead => ?_
    refine .bind (allocate_safe hm₂ (by simp)) fun tail m₃ hm₃ hext₃ htail => .pure hm₃ ?_
    simpa using ⟨hext₃.occupied _ hhead, htail⟩
  · exact .throw (by decide)
  · exact .fail (by decide)

theorem demandNatural_safe (hm : m.Sane) (hid : m.Occupied (.Thunk id))
    (hstate : m.Holds (Frame.Natural state).nodes ∧ (Frame.Natural state).Fits)
    (hframes : m.Carries frames) : Safe m (demandNatural setting state id frames) Goes :=
  .bind (push_safe hm hframes hstate) fun _ _ hm' hext hframes' =>
    .pure hm' ⟨hext.occupied _ hid, hframes'⟩

/-- An operation on natural numbers takes one more argument. -/
theorem applyNat_safe {operation : NatOperation} (hm : m.Sane)
    (harguments : m.Holds (arguments.map .Thunk)) (hargument : m.Occupied (.Thunk argument))
    (hframes : m.Carries frames) :
    Safe m (applyNat setting operation arguments argument frames) Goes := by
  have hall := holds_concat.2 ⟨harguments, hargument⟩
  unfold applyNat
  dsimp only
  generalize arguments ++ [argument] = all at hall ⊢
  refine .ite (fun _ => goes hframes (allocate_safe hm hall)) fun _ =>
    .ite (fun _ => .fail (by decide)) fun harity => ?_
  have harity : all.length = operation.arity := not_not.1 harity
  split
  · next hout =>
    have hlength := List.getElem?_eq_none_iff.1 hout
    rw [harity] at hlength
    cases operation <;> simp [NatOperation.arity] at hlength
  · next first hfirst =>
    refine demandNatural_safe hm (hall.get hfirst) ⟨hall, harity, ?_⟩ hframes
    show 0 < operation.arity
    cases operation <;> decide

theorem bounded_safe {value : Nat} {message : String} (hm : m.Sane)
    (herr : Proper (.natOverflow message)) : Safe m (bounded value message) fun _ _ => True :=
  .ite (fun _ => .pure hm trivial) fun _ => .throw herr

/-- The thunk behind a prefix of successors is occupied. -/
theorem prefixParts_safe {value : Value} (hm : m.Sane) (hvalue : m.Holds value.nodes) :
    Safe m (prefixParts value) fun parts m' =>
      ∀ count tail, parts = some (count, some tail) → m'.Occupied (.Thunk tail) := by
  unfold prefixParts
  split
  · refine .pure hm fun count tail h => ?_
    split at h <;> cases h
  · next count tail =>
    have htail : m.Occupied (.Thunk tail) := hvalue _ (by simp)
    refine .bind (prefixCount_safe hm) fun count m' hm' hext _ => .pure hm' fun _ _ h => ?_
    cases h
    exact hext.occupied _ htail
  · exact .pure hm fun _ _ h => nomatch h

/-- An addition or a doubling goes on lazily behind a prefix. -/
theorem prefixArithmetic_safe {value : Value} (hm : m.Sane)
    (hstate : m.Holds (Frame.Natural state).nodes ∧ (Frame.Natural state).Fits)
    (hoperation : state.operation = .Add ∨ state.operation = .Double)
    (hvalue : m.Holds value.nodes) :
    Safe m (prefixArithmetic setting state value) fun id m' => m'.Occupied (.Thunk id) := by
  obtain ⟨operation, arguments, values, counted⟩ := state
  obtain ⟨harguments, harity, -⟩ := hstate
  refine .bind (prefixParts_safe hm hvalue) fun parts m' hm' hext hparts => ?_
  have hall : m'.Holds (arguments.map .Thunk) := harguments.mono hext
  split
  · exact ordinaryNat_safe hm' hall
  · next count tail =>
    rcases hoperation with hadd | hdouble
    · obtain rfl : operation = .Add := hadd
      obtain ⟨left, right, rfl⟩ := List.length_eq_two.1 harity
      have hright : m'.Occupied (.Thunk right) := hall _ (by simp)
      cases tail with
      | none => exact natPrefix_safe hm' hright
      | some tail =>
        exact .bind (deferredNat_safe hm' (by simpa using ⟨hparts count tail rfl, hright⟩))
          fun tail m'' hm'' _ htail => natPrefix_safe hm'' htail
    · obtain rfl : operation = .Double := hdouble
      cases tail with
      | none => exact .bind (nat_safe hm') fun tail m'' hm'' _ htail => natPrefix_safe hm'' htail
      | some tail =>
        exact .bind (deferredNat_safe hm' (by simpa using hparts count tail rfl))
          fun tail m'' hm'' _ htail => natPrefix_safe hm'' htail

/-- The result of an operation with all its operands. -/
theorem finishNat_safe {value : Nat} (hm : m.Sane) (hoperation : state.operation ≠ .ArrayNew)
    (hvalues : state.values.length = state.operation.arity) :
    Safe m (finishNat setting state value) fun id m' => m'.Occupied (.Thunk id) := by
  obtain ⟨operation, arguments, values, counted⟩ := state
  cases operation with
  | ArrayNew => exact absurd rfl hoperation
  | Add =>
    obtain ⟨left, right, rfl⟩ := List.length_eq_two.1 hvalues
    exact .bind (bounded_safe hm (by decide)) fun _ _ hm' _ _ => nat_safe hm'
  | Mul =>
    obtain ⟨left, right, rfl⟩ := List.length_eq_two.1 hvalues
    exact .bind (bounded_safe hm (by decide)) fun _ _ hm' _ _ => nat_safe hm'
  | Sub =>
    obtain ⟨left, right, rfl⟩ := List.length_eq_two.1 hvalues
    exact nat_safe hm
  | Cmp =>
    obtain ⟨left, right, rfl⟩ := List.length_eq_two.1 hvalues
    exact readyConstructor_safe hm (by simp)
  | Double =>
    obtain ⟨left, rfl⟩ := List.length_eq_one_iff.1 hvalues
    exact .bind (bounded_safe hm (by decide)) fun _ _ hm' _ _ => nat_safe hm'
  | Show =>
    exact .bind (readyConstructor_safe hm (by simp)) fun _ _ hm' _ hresult =>
      textSpine_safe hm' hresult
  | FromU32 => exact nat_safe hm
  | ToU32 => exact numericWordValue_safe hm

/-- An operand that is known goes to the frame. -/
theorem knownOperand_safe {value : Nat} (hm : m.Sane)
    (hstate : m.Holds (Frame.Natural state).nodes ∧ (Frame.Natural state).Fits)
    (hoperation : state.operation ≠ .ArrayNew) (hframes : m.Carries frames) :
    Safe m (knownOperand setting state value frames) Goes := by
  obtain ⟨harguments, harity, hlt⟩ := hstate
  have hlength : (state.values ++ [value]).length = state.values.length + 1 := by simp
  refine .ite (fun _ => goes hframes (nat_safe hm)) fun _ => ?_
  dsimp only
  refine .ite (fun hmore => ?_) fun hfull => ?_
  · split
    · next hout => exact absurd (List.getElem?_eq_none_iff.1 hout) (by omega)
    · next next hnext =>
      exact demandNatural_safe hm (Machine.Holds.get harguments hnext)
        ⟨harguments, harity,
          show (state.values ++ [value]).length < state.operation.arity by omega⟩ hframes
  · exact goes hframes (finishNat_safe hm hoperation
      (show (state.values ++ [value]).length = state.operation.arity by omega))

theorem arrayDepth_safe {depth : Nat} (hm : m.Sane)
    (harguments : m.Holds (state.arguments.map .Thunk)) (hframes : m.Carries frames) :
    Safe m (arrayDepth setting state depth frames) Goes :=
  .ite (fun _ => .throw (by decide)) fun _ => goes hframes (ordinaryNat_safe hm harguments)

theorem arrayDepthStep_safe {value : Value} (hm : m.Sane)
    (hstate : m.Holds (Frame.Natural state).nodes ∧ (Frame.Natural state).Fits)
    (hvalue : m.Holds value.nodes) (hframes : m.Carries frames) :
    Safe m (arrayDepthStep setting state value frames) Goes := by
  have hbody : Safe m (do
      let id ← ordinaryNat setting state.operation state.arguments
      return (id, frames)) Goes := goes hframes (ordinaryNat_safe hm hstate.1)
  unfold arrayDepthStep
  split
  · exact arrayDepth_safe hm hstate.1 hframes
  · next count tail =>
    have htail : m.Occupied (.Thunk tail) := hvalue _ (by simp)
    refine .bind (prefixCount_safe hm) fun count m' hm' hext _ => ?_
    have hstate' := hstate.1.mono hext
    refine .ite (fun _ => ?_) fun _ => arrayDepth_safe hm' hstate' (hframes.mono hext)
    exact demandNatural_safe hm' (hext.occupied _ htail) ⟨hstate', hstate.2⟩ (hframes.mono hext)
  · split
    · exact .ite (fun _ => arrayDepth_safe hm hstate.1 hframes) fun _ => hbody
    · next next =>
      have hnext : m.Occupied (.Thunk next) := hvalue _ (by simp)
      refine .ite (fun _ => ?_) fun _ => hbody
      exact .ite (fun _ => demandNatural_safe hm hnext hstate hframes) fun _ =>
        arrayDepth_safe hm hstate.1 hframes
    · exact hbody
  · exact hbody

theorem enterBody_safe (hm : m.Sane) (harguments : m.Holds (state.arguments.map .Thunk))
    (hframes : m.Carries frames) : Safe m (enterBody setting state frames) Goes :=
  goes hframes (ordinaryNat_safe hm harguments)

theorem countOn_safe {count : Nat} {next : ThunkId} (hm : m.Sane)
    (hstate : m.Holds (Frame.Natural state).nodes ∧ (Frame.Natural state).Fits)
    (hnext : m.Occupied (.Thunk next)) (hframes : m.Carries frames) :
    Safe m (countOn setting state count next frames) Goes :=
  .bind (bounded_safe hm (by decide)) fun _ _ hm' hext _ =>
    demandNatural_safe hm' (hext.occupied _ hnext) ⟨hstate.1.mono hext, hstate.2⟩
      (hframes.mono hext)

/-- A value is taken by a frame for natural numbers. -/
theorem strictNatStep_safe {value : Value} (hm : m.Sane)
    (hstate : m.Holds (Frame.Natural state).nodes ∧ (Frame.Natural state).Fits)
    (hoperation : state.operation ≠ .ArrayNew) (hvalue : m.Holds value.nodes)
    (hframes : m.Carries frames) : Safe m (strictNatStep setting state value frames) Goes := by
  have hbody : Safe m (enterBody setting state frames) Goes := enterBody_safe hm hstate.1 hframes
  unfold strictNatStep
  dsimp only
  split
  · exact .ite (fun _ => knownOperand_safe hm hstate hoperation hframes) fun _ => hbody
  · refine .ite (fun _ => ?_) fun _ => hbody
    exact .bind (bounded_safe hm (by decide)) fun _ _ hm' hext _ =>
      knownOperand_safe hm' ⟨hstate.1.mono hext, hstate.2⟩ hoperation (hframes.mono hext)
  · next count tail =>
    have htail : m.Occupied (.Thunk tail) := hvalue _ (by simp)
    refine .ite (fun _ => ?_) fun _ => hbody
    exact .bind (prefixCount_safe hm) fun _ _ hm' hext _ =>
      countOn_safe hm' ⟨hstate.1.mono hext, hstate.2⟩ (hext.occupied _ htail) (hframes.mono hext)
  · split
    · exact .ite (fun _ => knownOperand_safe hm hstate hoperation hframes) fun _ => hbody
    · next next =>
      exact .ite (fun _ => countOn_safe hm hstate (hvalue _ (by simp)) hframes) fun _ => hbody
    · exact hbody
  · exact hbody

theorem natStep_safe {value : Value} (hm : m.Sane)
    (hstate : m.Holds (Frame.Natural state).nodes ∧ (Frame.Natural state).Fits)
    (hvalue : m.Holds value.nodes) (hframes : m.Carries frames) :
    Safe m (natStep setting state value frames) Goes :=
  .ite (fun _ => arrayDepthStep_safe hm hstate hvalue hframes) fun harray =>
    .ite (fun hprefix => goes hframes (prefixArithmetic_safe hm hstate hprefix.2 hvalue)) fun _ =>
      strictNatStep_safe hm hstate harray hvalue hframes

end Naturals

/-! ## 4. Turns -/

/-- A run stands at occupied slots. -/
def Stands (next : Control × List Frame) (m : Machine) : Prop :=
  (match next.1 with
    | .Enter current => m.Occupied (.Thunk current)
    | .Return value => m.Holds value.nodes) ∧ m.Carries next.2

section Turns

variable {setting : Setting} {m m' : Machine} {id argument : ThunkId} {scope : EnvId}
  {frames : List Frame} {frame : Frame} {value : Value}

/-- A thunk that is entered is updated by the frame below it. -/
theorem pushUpdate_safe (hm : m.Sane) (hid : m.Occupied (.Thunk id)) (hframes : m.Carries frames) :
    Safe m (pushUpdate setting id frames) fun frames' m' => m'.Carries frames' := by
  unfold pushUpdate
  split
  · next target rest =>
    have htarget : m.Occupied (.Thunk target) := (carries_cons.1 hframes).1.1 _ (by simp)
    exact .bind (store_safe hm hid (by simpa using htarget)) fun _ _ hm' hext _ =>
      .pure hm' (hframes.mono hext)
  · exact .bind (store_safe hm hid (by simp)) fun _ _ hm' hext _ =>
      push_safe hm' (hframes.mono hext) (by simpa using hext.occupied _ hid)

theorem splitChain_holds (hframes : m.Carries frames) :
    m.Holds ((splitChain frames).1.toList.map .Thunk) ∧ m.Carries (splitChain frames).2 := by
  unfold splitChain
  split
  · obtain ⟨⟨hparent, -⟩, hrest⟩ := carries_cons.1 hframes
    exact ⟨by simpa using hparent, hrest⟩
  · exact ⟨by simp, hframes⟩

/-- Updates below a constructor become one. -/
theorem compressConstructorTail_safe (hm : m.Sane) (hframes : m.Carries frames) :
    Safe m (compressConstructorTail setting frames) fun frames' m' => m'.Carries frames' := by
  unfold compressConstructorTail
  split
  · next child name fields next root rest =>
    obtain ⟨⟨hchild, -⟩, ⟨hfields, -⟩, ⟨hroot, -⟩, hrest⟩ :
        (m.Holds _ ∧ _) ∧ (m.Holds _ ∧ _) ∧ (m.Holds _ ∧ _) ∧ _ := by
      simpa only [carries_cons] using hframes
    obtain ⟨hparent, hrest'⟩ := splitChain_holds hrest
    refine .ite (fun _ => ?_) fun _ => .pure hm hframes
    refine .bind (tick_safe hm) fun _ m₁ hm₁ hext₁ _ => ?_
    dsimp only
    refine .bind (store_safe hm₁ (hext₁.occupied _ (hroot _ (by simp)))
      (holds_append.2 ⟨hfields.mono hext₁, hparent.mono hext₁⟩)) fun _ m₂ hm₂ hext₂ _ => ?_
    have hext := hext₁.trans hext₂
    refine .bind (push_safe hm₂ (hrest'.mono hext) ⟨hroot.mono hext, trivial⟩)
      fun frames m₃ hm₃ hext₃ hframes₃ => ?_
    exact push_safe hm₃ hframes₃ ⟨hchild.mono (hext.trans hext₃), trivial⟩
  · exact .pure hm hframes

theorem strictConstructor_safe {name : String} {fields : List ThunkId} (hm : m.Sane)
    (hfields : m.Holds (fields.map .Thunk)) :
    Safe m (strictConstructor setting name fields value) fun value m' => m'.Holds value.nodes := by
  refine .ite (fun _ => ?_) fun _ => .pure hm hfields
  split
  · exact .bind (bounded_safe hm (by decide)) fun _ _ hm' _ _ => .pure hm' (by simp)
  · exact .fail (by decide)

/-- The chain of updates takes the value. -/
theorem completeLoop_safe {gas : Nat} {head : ThunkId} (hm : m.Sane)
    (hvalue : m.Holds value.nodes) :
    Safe m (completeLoop setting gas head value) fun value m' => m'.Holds value.nodes := by
  induction gas generalizing m head value with
  | zero => exact .fail (by decide)
  | succ gas ih =>
    refine .bind (tick_safe hm) fun _ m₁ hm₁ hext₁ _ => .get_bind ?_
    split
    · next name fields parent hat =>
      have hhead : m₁.Occupied (.Thunk head) := occupied_thunk_iff.2 ⟨_, hat⟩
      obtain ⟨hfields, hparent⟩ := holds_append.1 (hm₁.thunk hat)
      refine .bind (strictConstructor_safe hm₁ hfields) fun value m₂ hm₂ hext₂ hvalue₂ => ?_
      refine .bind (store_safe hm₂ (hext₂.occupied _ hhead) hvalue₂)
        fun _ m₃ hm₃ hext₃ _ => ?_
      split
      · exact .pure hm₃ (hvalue₂.mono hext₃)
      · exact ih hm₃ (hvalue₂.mono hext₃)
    · exact .fail (by decide)

/-- The bindings of a `let` are occupied thunks. -/
theorem letBindings_safe {bindings : List (LetBinding Term)} (hm : m.Sane)
    (hscope : m.Occupied (.Environment scope)) :
    Safe m (letBindings setting scope bindings) fun bound m' =>
      ∀ b ∈ bound, m'.Occupied (.Thunk b.2) := by
  induction bindings generalizing m with
  | nil => exact .pure hm fun _ h => absurd h List.not_mem_nil
  | cons b bs ih =>
    refine .bind (expression_safe hm hscope) fun id m₁ hm₁ hext₁ hid => ?_
    refine .bind (ih hm₁ (hext₁.occupied _ hscope)) fun bound m₂ hm₂ hext₂ hbound => .pure hm₂ ?_
    exact List.forall_mem_cons.2 ⟨hext₂.occupied _ hid, hbound⟩

/-- A constructor in the code is entered with its fields. -/
theorem enterFields_safe {name : String} {fields : List ThunkId} (hm : m.Sane)
    (hfields : m.Holds (fields.map .Thunk)) (hframes : m.Carries frames) :
    Safe m (enterFields setting name fields frames) Stands := by
  unfold enterFields
  split
  · exact .pure hm ⟨hfields, hframes⟩
  · next first rest =>
    refine .ite (fun _ => ?_) fun _ => .pure hm ⟨hfields, hframes⟩
    have hnext {frames₁ : List Frame} {m₁ : Machine} (hm₁ : m₁.Sane) (hext₁ : Retains m m₁)
        (hframes₁ : m₁.Carries frames₁) : Safe m₁ (do
          let frames ← push setting (.Constructor name (first :: rest) 1) frames₁
          return (.Enter first, frames)) Stands :=
      .bind (push_safe hm₁ hframes₁ ⟨hfields.mono hext₁, trivial⟩)
        fun _ _ hm₂ hext₂ hframes₂ =>
          .pure hm₂ ⟨(hext₁.trans hext₂).occupied _ (hfields _ (by simp)), hframes₂⟩
    refine .ite (fun _ => ?_) fun _ => hnext hm (.refl m) hframes
    exact .bind (compressConstructorTail_safe hm hframes) fun _ _ hm₁ hext₁ hframes₁ =>
      hnext hm₁ hext₁ hframes₁

theorem wordLiteral_nodes {name : String} {args : List Term} (hvalue : packedLiteral name args =
    some value) : value.nodes = [] := by
  unfold packedLiteral at hvalue
  split at hvalue
  · obtain ⟨bits, -, rfl⟩ := Option.map_eq_some_iff.1 hvalue
    rfl
  · cases hvalue

theorem natLiteralLoop_nodes {gas count : Nat} {name : String} {args : List Term}
    (hvalue : natLiteralLoop gas name args count = some value) : value.nodes = [] := by
  induction gas generalizing name args count with
  | zero => cases hvalue
  | succ gas ih =>
    unfold natLiteralLoop at hvalue
    split at hvalue
    · split at hvalue
      · cases hvalue
        rfl
      · cases hvalue
    · split at hvalue
      · exact ih hvalue
      · cases hvalue
    · cases hvalue

/-- A literal holds no node. -/
theorem literalOf_nodes {name : String} {args : List Term}
    (hvalue : literalOf setting name args = some value) : value.nodes = [] := by
  unfold literalOf at hvalue
  split at hvalue
  · rcases (Option.orElse_eq_some _ _ _).1 hvalue with h | ⟨-, h⟩
    · exact wordLiteral_nodes h
    · exact natLiteralLoop_nodes h
  · cases hvalue

/-- **An expression is entered in one turn.** -/
theorem enterExpression_safe {term : Term} (hm : m.Sane) (hscope : m.Occupied (.Environment scope))
    (hframes : m.Carries frames) :
    Safe m (enterExpression setting term scope frames) Stands := by
  have henter {m₁ : Machine} {x : M ThunkId} (hframes : m₁.Carries frames)
      (hx : Safe m₁ x fun id m' => m'.Occupied (.Thunk id)) :
      Safe m₁ (do let current ← x; return (.Enter current, frames)) Stands :=
    .bind hx fun _ _ hm' hext hid => .pure hm' ⟨hid, hframes.mono hext⟩
  unfold enterExpression
  split
  · exact henter hframes (.get_bind (variableLoop_safe hm hscope))
  · exact henter hframes (reference_safe hm)
  · exact henter hframes (reference_safe hm)
  · exact .pure hm ⟨by simpa using hscope, hframes⟩
  · refine .bind (expression_safe hm hscope) fun argument m₁ hm₁ hext₁ hargument => ?_
    refine .bind (push_safe hm₁ (hframes.mono hext₁) (by simpa using hargument))
      fun frames₂ m₂ hm₂ hext₂ hframes₂ => ?_
    exact .bind (expression_safe hm₂ ((hext₁.trans hext₂).occupied _ hscope))
      fun current m₃ hm₃ hext₃ hcurrent => .pure hm₃ ⟨hcurrent, hframes₂.mono hext₃⟩
  · split
    · next value hvalue =>
      have hnodes : m.Holds value.nodes := literalOf_nodes hvalue ▸ holds_nil
      exact .pure hm ⟨hnodes, hframes⟩
    · exact .bind (expressions_safe hm hscope) fun fields m₁ hm₁ hext₁ hfields =>
        enterFields_safe hm₁ hfields (hframes.mono hext₁)
  · refine .bind (expression_safe hm hscope) fun arm m₁ hm₁ hext₁ harm => ?_
    refine .bind (expression_safe hm₁ (hext₁.occupied _ hscope))
      fun fallback m₂ hm₂ hext₂ hfallback => .pure hm₂ ⟨?_, hframes.mono (hext₁.trans hext₂)⟩
    simpa using ⟨hext₂.occupied _ harm, hfallback⟩
  · refine .bind (letBindings_safe hm hscope) fun bindings m₁ hm₁ hext₁ hbindings => ?_
    refine .bind (environment_safe hm₁ (hext₁.occupied _ hscope) hbindings)
      fun scope' m₂ hm₂ hext₂ hscope' => ?_
    exact henter (hframes.mono (hext₁.trans hext₂)) (expression_safe hm₂ hscope')
  · exact henter hframes (expression_safe hm hscope)
  · exact henter hframes (expression_safe hm hscope)
  · exact .pure hm ⟨by simp, hframes⟩
  · exact .fail (by decide)
  · exact .pure hm ⟨by simp, hframes⟩

/-- After a collection the machine is sane, and what the run refers to is still there. -/
theorem Collected.sane {current : ThunkId} (h : Collected (m.Live current frames) m m')
    (hframes : m.Carries frames) :
    m'.Sane ∧ m'.callerRoots = m.callerRoots ∧ m'.Occupied (.Thunk current) ∧
      m'.Carries frames := by
  have hroot (n : Node) (hn : n ∈ m.roots current frames) : m'.Occupied n :=
    h.occupied (.of_start hn)
  have hlive (n : Node) (hn : m'.Occupied n) : m.Live current frames n := by
    by_contra hdead
    cases n with
    | Thunk id =>
      obtain ⟨thunk, hat⟩ := hn.thunk
      obtain ⟨hlt, -⟩ := List.getElem?_eq_some_iff.1 hat
      cases hat.symm.trans (h.thunks.emptied id (h.thunks.length ▸ hlt) hdead)
    | Environment id =>
      obtain ⟨environment, hat⟩ := hn.environment
      obtain ⟨hlt, -⟩ := List.getElem?_eq_some_iff.1 hat
      cases hat.symm.trans (h.environments.emptied id (h.environments.length ▸ hlt) hdead)
  obtain ⟨r, hrest⟩ := h.rest
  have hglobals : m'.globals = m.globals := by rw [hrest]
  have hcallers : m'.callerRoots = m.callerRoots := by rw [hrest]
  have hhosts : m'.hostRoots = m.hostRoots := by rw [hrest]
  refine ⟨⟨?_, hroot _ (by simp [Machine.roots]), ?_, ?_, ?_, ?_, ?_⟩, hcallers,
    hroot _ (by simp [Machine.roots]), fun frame hframe => ⟨fun n hn => hroot n ?_,
      (hframes frame hframe).2⟩⟩
  · rintro x y ⟨nodes, hx, hy⟩
    have hxlive := hlive x (Machine.occupied_iff.2 ⟨nodes, hx⟩)
    rw [h.edgesAt_of_live hxlive] at hx
    exact h.occupied (hxlive.tail ⟨nodes, hx, hy⟩)
  · rw [hglobals]
    intro g hg
    refine hroot _ ?_
    simp only [Machine.roots, List.mem_append, List.mem_map]
    exact .inl (.inl (.inr ⟨g, hg, rfl⟩))
  · rw [hcallers]
    intro id hid
    refine hroot _ ?_
    simp only [Machine.roots, List.mem_append, List.mem_map]
    exact .inl (.inr ⟨id, hid, rfl⟩)
  · rw [hhosts]
    intro id hid
    refine hroot _ ?_
    simp only [Machine.roots, List.mem_append, List.mem_map]
    exact .inr ⟨id, hid, rfl⟩
  · rw [h.thunks.free]
    exact ⟨vacant_nodup _, fun id => mem_vacant⟩
  · rw [h.environments.free]
    exact ⟨vacant_nodup _, fun id => mem_vacant⟩
  · simp only [Machine.roots, List.mem_append, List.mem_flatMap, List.mem_reverse]
    exact .inl (.inl (.inl (.inr ⟨frame, hframe, hn⟩)))

/-- A machine that is sane has no node that is reachable and missing. -/
theorem Machine.Sane.live_occupied {current : ThunkId} (hm : m.Sane)
    (hcurrent : m.Occupied (.Thunk current)) (hframes : m.Carries frames) {n : Node}
    (hn : m.Live current frames n) : m.Occupied n := by
  refine hn.induct (fun s hs => ?_) fun x y _ hxy => hm.edges x y hxy
  simp only [Machine.roots, List.mem_append, List.mem_cons, List.not_mem_nil, or_false,
    List.mem_flatMap, List.mem_reverse, List.mem_map] at hs
  rcases hs with ((((rfl | rfl) | ⟨frame, hframe, hs⟩) | ⟨g, hg, rfl⟩) | ⟨id, hid, rfl⟩) |
    ⟨id, hid, rfl⟩
  · exact hcurrent
  · exact hm.root
  · exact (hframes frame hframe).1 s hs
  · exact hm.globals g hg
  · exact hm.callers id hid
  · exact hm.hosts id hid

/-- What a turn keeps, a collection in front of it included. -/
def Turns {α : Type} (m : Machine) (x : M α) (Q : α → Machine → Prop) : Prop :=
  Finishes x m (fun a m' => (m'.Sane ∧ m'.callerRoots = m.callerRoots) ∧ Q a m')
    fun err _ => Proper err

theorem Safe.turns {α : Type} {x : M α} {Q : α → Machine → Prop} (h : Safe m x Q) : Turns m x Q :=
  Finishes.imp h fun _ _ h => ⟨⟨h.1.1, h.1.2.callers⟩, h.2⟩

theorem Turns.bind {α β : Type} {x : M α} {f : α → M β} {Q : α → Machine → Prop}
    {R : β → Machine → Prop} (hx : Turns m x Q)
    (hf : ∀ a m', m'.Sane → m'.callerRoots = m.callerRoots → Q a m' → Turns m' (f a) R) :
    Turns m (x >>= f) R :=
  Finishes.bind hx fun a m' h => (hf a m' h.1.1 h.1.2 h.2).imp
    fun _ _ h' => ⟨⟨h'.1.1, h'.1.2.trans h.1.2⟩, h'.2⟩

/-- A collection keeps the thunk that is evaluated and the frames. -/
theorem collectionSafePoint_turns {current : ThunkId} (hm : m.Sane)
    (hcurrent : m.Occupied (.Thunk current)) (hframes : m.Carries frames) :
    Turns m (collectionSafePoint setting current frames) fun _ m' =>
      m'.Occupied (.Thunk current) ∧ m'.Carries frames := by
  refine Finishes.get_bind (.ite (fun _ => ?_) fun _ => .pure ⟨⟨hm, rfl⟩, hcurrent, hframes⟩)
  refine (collect_spec m current frames).mono (fun _ m' h => ?_) ?_
  · obtain ⟨hsane, hcallers, hcurrent', hframes'⟩ := h.sane hframes
    exact ⟨⟨hsane, hcallers⟩, hcurrent', hframes'⟩
  · rintro err _ (rfl | ⟨n, hn, hvacant⟩)
    · decide
    · exact absurd (hm.live_occupied hcurrent hframes hn) hvacant

/-- A thunk is entered after the safe point. -/
theorem enter_turns {current : ThunkId} (hm : m.Sane) (hcurrent : m.Occupied (.Thunk current))
    (hframes : m.Carries frames) : Turns m (enter setting current frames) Stands := by
  refine .bind (collectionSafePoint_turns hm hcurrent hframes)
    fun _ m₁ hm₁ _ ⟨hcurrent₁, hframes₁⟩ => Safe.turns ?_
  refine .bind (tick_safe hm₁) fun _ m₂ hm₂ hext₂ _ => .get_bind ?_
  have hcurrent₂ := hext₂.occupied _ hcurrent₁
  have hframes₂ := hframes₁.mono hext₂
  obtain ⟨thunk, hat⟩ := occupied_thunk_iff.1 hcurrent₂
  have hnodes := hm₂.thunk hat
  simp only [hat]
  cases thunk with
  | Ready value => exact .pure hm₂ ⟨hnodes, hframes₂⟩
  | Alias target => exact .pure hm₂ ⟨hnodes _ (by simp), hframes₂⟩
  | Evaluating => exact .fail (by decide)
  | PendingConstructor name fields parent => exact .fail (by decide)
  | Application function argument =>
    refine .bind (pushUpdate_safe hm₂ hcurrent₂ hframes₂) fun _ m₃ hm₃ hext₃ hframes₃ => ?_
    refine .bind (push_safe hm₃ hframes₃ (by simpa using hext₃.occupied _ (hnodes _ (by simp))))
      fun _ m₄ hm₄ hext₄ hframes₄ => .pure hm₄ ⟨?_, hframes₄⟩
    exact (hext₃.trans hext₄).occupied _ (hnodes _ (by simp))
  | Expression term scope =>
    refine .bind (pushUpdate_safe hm₂ hcurrent₂ hframes₂) fun _ m₃ hm₃ hext₃ hframes₃ => ?_
    exact enterExpression_safe hm₃ (hext₃.occupied _ (hnodes _ (by simp))) hframes₃

/-- A foreign function takes one more argument. -/
theorem applyForeign_safe {name : String} {arguments : List ThunkId} (hm : m.Sane)
    (harguments : m.Holds (arguments.map .Thunk)) (hargument : m.Occupied (.Thunk argument)) :
    Safe m (applyForeign setting name arguments argument) fun id m' => m'.Occupied (.Thunk id) := by
  have hall := holds_concat.2 ⟨harguments, hargument⟩
  unfold applyForeign
  split
  · exact .fail (by decide)
  · next declared _ =>
    dsimp only
    generalize arguments ++ [argument] = all at hall ⊢
    refine .ite (fun hlength => ?_) fun _ => allocate_safe hm hall
    split
    · next hout => exact absurd (List.getElem?_eq_none_iff.1 hout) (by omega)
    · next continuation hcontinuation =>
      refine allocate_safe hm (holds_append.2 ⟨fun n hn => ?_, ?_⟩)
      · obtain ⟨id, hid, rfl⟩ := List.mem_map.1 hn
        exact hall _ (List.mem_map_of_mem (List.mem_of_mem_take hid))
      · simpa using hall.get hcontinuation

theorem entering_safe {x : M (ThunkId × List Frame)} (hx : Safe m x Goes) :
    Safe m (entering x) Stands :=
  .bind hx fun _ _ hm' _ hgoes => .pure hm' hgoes

/-- A value is applied to an argument. -/
theorem applyValue_safe (hm : m.Sane) (hvalue : m.Holds value.nodes)
    (hargument : m.Occupied (.Thunk argument)) (hframes : m.Carries frames) :
    Safe m (applyValue setting value argument frames) Stands := by
  unfold applyValue
  split
  · next binder body scope =>
    refine .bind (environment_safe hm (hvalue _ (by simp)) (by simpa using hargument))
      fun scope' m₁ hm₁ hext₁ hscope' => ?_
    exact .bind (expression_safe hm₁ hscope') fun _ _ hm₂ hext₂ hcurrent =>
      .pure hm₂ ⟨hcurrent, hframes.mono (hext₁.trans hext₂)⟩
  · next constructor arm fallback =>
    refine .bind (push_safe hm hframes ?_) fun _ _ hm₁ hext₁ hframes₁ =>
      .pure hm₁ ⟨hext₁.occupied _ hargument, hframes₁⟩
    obtain ⟨harm, hfallback⟩ := holds_cons.1 hvalue
    simpa using ⟨harm, hfallback _ (by simp), hargument⟩
  · exact .fail (by decide)
  · exact .bind (applyForeign_safe hm hvalue hargument) fun _ _ hm₁ hext₁ hcurrent =>
      .pure hm₁ ⟨hcurrent, hframes.mono hext₁⟩
  · exact entering_safe (applyNumeric_safe hm hvalue hargument hframes)
  · exact entering_safe (applyNat_safe hm hvalue hargument hframes)
  · exact .bind (allocate_safe hm (by simpa using hargument)) fun _ _ hm₁ hext₁ hcurrent =>
      .pure hm₁ ⟨hcurrent, hframes.mono hext₁⟩
  · exact .fail (by decide)

theorem isReady_safe (hm : m.Sane) (hargument : m.Occupied (.Thunk argument)) :
    Safe m (isReady argument) fun _ _ => True := by
  obtain ⟨thunk, hat⟩ := hargument.thunk
  refine .get_bind ?_
  rw [hat]
  cases thunk <;> exact .pure hm trivial

/-- A match goes on with its arm or its fallback. -/
theorem selectArm_safe {constructor : String} {arm fallback : ThunkId} (hm : m.Sane)
    (hvalue : m.Holds value.nodes)
    (hframe : m.Holds (Frame.nodes (.Match constructor arm fallback argument)))
    (hframes : m.Carries frames) :
    Safe m (selectArm setting value constructor arm fallback argument frames) Stands := by
  have harm : m.Occupied (.Thunk arm) := hframe _ (by simp)
  have hfallback : m.Occupied (.Thunk fallback) := hframe _ (by simp)
  have hargument : m.Occupied (.Thunk argument) := hframe _ (by simp)
  unfold selectArm
  split
  · exact .throw (by decide)
  · refine .bind (constructorValue_safe hm hvalue) fun made m₁ hm₁ hext₁ hfields => ?_
    refine .ite (fun _ => ?_) fun _ => ?_
    · exact .bind (applications_safe hm₁ (hext₁.occupied _ harm) hfields)
        fun _ _ hm₂ hext₂ hcurrent =>
          .pure hm₂ ⟨hcurrent, hframes.mono (hext₁.trans hext₂)⟩
    · refine .bind (allocate_safe hm₁ ?_) fun _ _ hm₂ hext₂ hcurrent =>
        .pure hm₂ ⟨hcurrent, hframes.mono (hext₁.trans hext₂)⟩
      simpa using ⟨hext₁.occupied _ hfallback, hext₁.occupied _ hargument⟩

/-- **A value is taken by the frame on the top of the stack.** -/
theorem resume_safe (hm : m.Sane) (hvalue : m.Holds value.nodes)
    (hframe : m.Holds frame.nodes ∧ frame.Fits) (hframes : m.Carries frames) :
    Safe m (resume setting value frame frames) Stands := by
  cases frame with
  | Update id =>
    exact .bind (store_safe hm (hframe.1 _ (by simp)) hvalue) fun _ _ hm₁ hext₁ _ =>
      .pure hm₁ ⟨hvalue.mono hext₁, hframes.mono hext₁⟩
  | Numeric frame => exact entering_safe (numericStep_safe hm hframe hvalue hframes)
  | Natural state => exact entering_safe (natStep_safe hm hframe hvalue hframes)
  | Apply argument =>
    have hargument : m.Occupied (.Thunk argument) := hframe.1 _ (by simp)
    refine .ite (fun _ => ?_) fun _ => applyValue_safe hm hvalue hargument hframes
    refine .bind (isReady_safe hm hargument) fun ready m₁ hm₁ hext₁ _ => ?_
    have hvalue₁ := hvalue.mono hext₁
    have hargument₁ := hext₁.occupied _ hargument
    have hframes₁ := hframes.mono hext₁
    refine .ite (fun _ => applyValue_safe hm₁ hvalue₁ hargument₁ hframes₁) fun _ => ?_
    refine .bind (push_safe hm₁ hframes₁ ⟨holds_append.2 ⟨hvalue₁, ?_⟩, trivial⟩)
      fun _ _ hm₂ hext₂ hframes₂ => .pure hm₂ ⟨hext₂.occupied _ hargument₁, hframes₂⟩
    simpa using hargument₁
  | Call argument => exact applyValue_safe hm hvalue (hframe.1 _ (by simp)) hframes
  | ResumeCall function argument =>
    obtain ⟨hfunction, hargument⟩ := holds_append.1 hframe.1
    exact .bind (push_safe hm hframes ⟨hargument, trivial⟩) fun _ _ hm₁ hext₁ hframes₁ =>
      .pure hm₁ ⟨hfunction.mono hext₁, hframes₁⟩
  | Constructor name fields next =>
    have hfields : m.Holds (fields.map .Thunk) := hframe.1
    rw [resume]
    split
    · next field hfield =>
      exact .bind (push_safe hm hframes ⟨hfields, trivial⟩) fun _ _ hm₁ hext₁ hframes₁ =>
        .pure hm₁ ⟨hext₁.occupied _ (hfields.get hfield), hframes₁⟩
    · exact .bind (strictConstructor_safe hm hfields) fun _ _ hm₁ hext₁ hvalue₁ =>
        .pure hm₁ ⟨hvalue₁, hframes.mono hext₁⟩
  | CompleteConstructorChain head =>
    refine .bind (.get_bind (completeLoop_safe hm hvalue)) fun _ _ hm₁ hext₁ hvalue₁ =>
      .pure hm₁ ⟨hvalue₁, hframes.mono hext₁⟩
  | Match constructor arm fallback argument => exact selectArm_safe hm hvalue hframe.1 hframes

/-- Where a run stands between two turns. -/
def Turn.Stands (next : Turn) (m : Machine) : Prop :=
  match next with
  | .Done value => m.Holds value.nodes
  | .Next control frames => Evaluator.Stands (control, frames) m

/-- **A turn keeps the machine sane**, and what the run refers to is there. -/
theorem turn_turns {control : Control} (hm : m.Sane) (hstands : Stands (control, frames) m) :
    Turns m (turn setting control frames) Turn.Stands := by
  obtain ⟨hcontrol, hframes⟩ := hstands
  cases control with
  | Enter current =>
    exact .bind (enter_turns hm hcontrol hframes) fun _ _ hm₁ _ hstands =>
      (Safe.pure hm₁ hstands).turns
  | Return value =>
    cases frames with
    | nil =>
      exact (Safe.bind (tick_safe hm) fun _ _ hm₁ hext₁ _ =>
        .pure hm₁ (Machine.Holds.mono hcontrol hext₁)).turns
    | cons frame frames =>
      obtain ⟨hframe, hrest⟩ := carries_cons.1 hframes
      refine (Safe.bind (tick_safe hm) fun _ _ hm₁ hext₁ _ => ?_).turns
      exact .bind (resume_safe hm₁ (Machine.Holds.mono hcontrol hext₁)
        ⟨hframe.1.mono hext₁, hframe.2⟩ (hrest.mono hext₁)) fun _ _ hm₂ _ hstands =>
          .pure hm₂ hstands

/-- A run goes on: it takes a turn, or it collects in front of the thunk that it enters, due or
not. -/
inductive Advances (setting : Setting) :
    Control × List Frame → Machine → Control × List Frame → Machine → Prop
  | turn {control control' : Control} {frames frames' : List Frame} {m m' : Machine}
    (hturn : turn setting control frames m = .ok (.Next control' frames') m') :
    Advances setting (control, frames) m (control', frames') m'
  | collect {current : ThunkId} {frames : List Frame} {m m' : Machine}
    (hcollect : collect current frames m = .ok () m') :
    Advances setting (.Enter current, frames) m (.Enter current, frames) m'

/-- A run that goes on keeps what it refers to. -/
theorem Advances.sane {stand stand' : Control × List Frame} (h : Advances setting stand m stand' m')
    (hm : m.Sane) (hstands : Stands stand m) : m'.Sane ∧ Stands stand' m' := by
  cases h with
  | turn hturn =>
    obtain ⟨⟨hm', -⟩, hstands'⟩ := (turn_turns hm hstands).result hturn
    exact ⟨hm', hstands'⟩
  | @collect current frames _ _ hcollect =>
    obtain ⟨hm', -, hcurrent, hframes⟩ :=
      ((collect_spec m current frames).result hcollect).sane hstands.2
    exact ⟨hm', hcurrent, hframes⟩

/-- The turns of a run keep the machine sane, by induction on the turns that are left. -/
theorem turns_turns {gas : Nat} {control : Control} (hm : m.Sane)
    (hstands : Stands (control, frames) m) :
    Turns m (turns setting gas control frames) fun value m' => m'.Holds value.nodes := by
  induction gas generalizing m control frames with
  | zero => exact (Safe.fail (by decide)).turns
  | succ gas ih =>
    refine .bind (turn_turns hm hstands) fun next m₁ hm₁ _ hstands₁ => ?_
    cases next with
    | Done value => exact (Safe.pure hm₁ hstands₁).turns
    | Next control frames => exact ih hm₁ hstands₁

/-- A thunk that is there is forced to a value whose thunks are there. -/
theorem force_turns {current : ThunkId} (hm : m.Sane) (hcurrent : m.Occupied (.Thunk current)) :
    Turns m (force setting current) fun value m' => m'.Holds value.nodes :=
  Finishes.get_bind (turns_turns hm ⟨hcurrent, carries_nil⟩)

end Turns

end TeamyBend.Runtime.Evaluator
