/-
# Words of finite layouts

A value of a finite sum is a vector of words.  Four traversals have to agree on it: `pack` places
the fields, `flat_constructor` writes them, a match compares the index and reads them, and the
ownership mask follows the indices to the words that are references.

All four rest on one fact, that the fields of an arm lie one after the other behind the index
(`Consecutive`).  A vector is then the index, the words of the fields and a rest
(`copyFields_eq`).
-/
import TeamyBend.Compiler.Layout
import Mathlib.Data.List.Forall2

namespace TeamyBend.Compiler.Layouts

open Kernel

/-! ## 1. The source -/

/-- What can go wrong: an error of the compiler, `err_fail` at run time, an index out of range. -/
inductive Failure where
  | compile (message : String)
  | fail (message : String)
  | panic
  deriving Repr, DecidableEq

/-- `clone_from_slice` at an offset. -/
def copyAt (words : List UInt64) (offset : Nat) (value : List UInt64) :
    Except Failure (List UInt64) :=
  if offset + value.length ≤ words.length then
    .ok (words.take offset ++ value ++ words.drop (offset + value.length))
  else .error .panic

/-- The fields of an arm, written into the vector. -/
def copyFields : List (Field Layout) → List (List UInt64) → List UInt64 →
    Except Failure (List UInt64)
  | field :: fields, value :: values, words => do
    copyFields fields values (← copyAt words field.offset value)
  | _, _, words => .ok words

/-- The vector of a sum before its fields: zeros, and the index where there are several arms. -/
def blank (layout : Layout) (arms : List (Arm Layout)) (index : Nat) :
    Except Failure (List UInt64) :=
  let words := List.replicate layout.words.length 0
  if arms.length > 1 then
    if words.isEmpty then .error .panic else .ok (words.set 0 (.ofNat index))
  else .ok words

/-- `Generator::flat_constructor`, for a layout with arms and the words of the live fields. -/
def flatConstructor (layout : Layout) (arms : List (Arm Layout)) (name : String)
    (values : List (List UInt64)) : Except Failure (List UInt64) :=
  match arms.findIdx? (·.name = name) with
  | none => .error (.compile "C segment constructor outside its layout")
  | some index =>
    match arms[index]? with
    | none => .error .panic
    | some arm =>
      if values.length ≠ arm.fields.length then
        .error (.compile "C segment constructor field count differs")
      else do copyFields arm.fields values (← blank layout arms index)

/-- `Generator::flat_match_condition`, for a layout with arms. -/
def flatMatchCondition (arms : List (Arm Layout)) (constructor : String) (words : List UInt64) :
    Except Failure Bool :=
  if arms.length = 1 then .ok true
  else
    match arms.findIdx? (·.name = constructor) with
    | none => .error (.compile "C flat match outside layout")
    | some tag =>
      match words.head? with
      | none => .error .panic
      | some word => .ok (word == .ofNat tag)

/-- A slice of the vector. -/
def slice (words : List UInt64) (offset length : Nat) : Except Failure (List UInt64) :=
  if offset + length ≤ words.length then .ok ((words.drop offset).take length) else .error .panic

/-- The slices of fields. -/
def sliceFields (words : List UInt64) : List (Field Layout) → Except Failure (List (List UInt64))
  | [] => .ok []
  | field :: fields => do
    let value ← slice words field.offset field.layout.words.length
    let values ← sliceFields words fields
    .ok (value :: values)

/-- `Generator::flat_match_fields`, for a layout with arms. -/
def flatMatchFields (arms : List (Arm Layout)) (constructor : String) (words : List UInt64) :
    Except Failure (List (List UInt64)) :=
  match arms.find? (·.name = constructor) with
  | none => .error (.compile "C flat constructor fields missing")
  | some selected => sliceFields words selected.fields

/-- One entry of the mask. -/
def mark (mask : List Bool) (index : Nat) : Except Failure (List Bool) :=
  if index < mask.length then .ok (mask.set index true) else .error .panic

/-- The references among plain words. -/
def markWords : List Kind → Nat → List Bool → Except Failure (List Bool)
  | [], _, mask => .ok mask
  | kind :: words, index, mask => do
    markWords words (index + 1) (← if kind = .Box then mark mask index else .ok mask)

mutual

/-- `fill_ownership_mask`, as the code it writes runs. -/
def fillOwnershipMask (input : List UInt64) :
    Layout → Nat → List Bool → Except Failure (List Bool)
  | .mk words arms, offset, mask =>
    match arms with
    | some arms =>
      if arms.length > 1 then
        match input[offset]? with
        | none => .error .panic
        | some tag => fillSwitch input arms tag.toNat offset mask
      else fillArms input arms offset mask
    | none => markWords words offset mask

/-- The `switch` over the index. -/
def fillSwitch (input : List UInt64) :
    List (Arm Layout) → Nat → Nat → List Bool → Except Failure (List Bool)
  | [], _, _, _ => .error (.fail "invalid ownership layout discriminator")
  | ⟨_, fields⟩ :: _, 0, offset, mask => fillFields input fields offset mask
  | _ :: arms, tag + 1, offset, mask => fillSwitch input arms tag offset mask

/-- The arms of a sum that has no index. -/
def fillArms (input : List UInt64) :
    List (Arm Layout) → Nat → List Bool → Except Failure (List Bool)
  | [], _, mask => .ok mask
  | ⟨_, fields⟩ :: arms, offset, mask => do
    fillArms input arms offset (← fillFields input fields offset mask)

/-- The fields of an arm. -/
def fillFields (input : List UInt64) :
    List (Field Layout) → Nat → List Bool → Except Failure (List Bool)
  | [], _, mask => .ok mask
  | ⟨place, layout⟩ :: fields, offset, mask => do
    fillFields input fields offset (← fillOwnershipMask input layout (offset + place) mask)

end

/-- `Generator::ownership_mask`. -/
def ownershipMask (layout : Layout) (input : List UInt64) : Except Failure (List Bool) :=
  fillOwnershipMask input layout 0 (.replicate layout.words.length false)

/-! ## 2. Values -/

/-- A value of a layout: a word, or an arm with its live fields. -/
inductive Value where
  | word (word : UInt64)
  | node (name : String) (values : List Value)

/-- **Induction over values.** -/
@[elab_as_elim, induction_eliminator]
theorem Value.induct {motive : Value → Prop} (word : ∀ w, motive (word w))
    (node : ∀ name values, (∀ v ∈ values, motive v) → motive (node name values)) (v : Value) :
    motive v :=
  @Value.rec motive (fun values => ∀ v ∈ values, motive v) word node (by simp)
    (fun _ _ h hs => by simpa using ⟨h, hs⟩) v

/-- The value has the shape of the layout. -/
inductive Fits : Layout → Value → Prop where
  | word {kind : Kind} {w : UInt64} : Fits (.word kind) (.word w)
  | node {words : List Kind} {arms : List (Arm Layout)} {arm : Arm Layout} {values : List Value}
      (hmem : arm ∈ arms)
      (hfields : List.Forall₂ (fun field value => Fits field.layout value) arm.fields values) :
      Fits (.mk words (some arms)) (.node arm.name values)

/-- The arm of a layout with a name. -/
def armOf (layout : Layout) (name : String) : Option (Arm Layout) :=
  layout.arms.bind fun arms => arms.find? (·.name = name)

mutual

/-- The vector of a value, from the words of its fields. -/
def assemble : Layout → Value → Except Failure (List UInt64)
  | _, .word w => .ok [w]
  | layout, .node name values => do
    let fields ← assembleFields (((armOf layout name).map Arm.fields).getD []) values
    flatConstructor layout (layout.arms.getD []) name fields

/-- The vectors of the fields of an arm. -/
def assembleFields : List (Field Layout) → List Value → Except Failure (List (List UInt64))
  | field :: fields, value :: values => do
    let words ← assemble field.layout value
    let rest ← assembleFields fields values
    .ok (words :: rest)
  | _, _ => .ok []

end

mutual

/-- The references of a value in its vector: the boxed words of the arms that it selects. -/
def boxes : Layout → Value → List Nat
  | layout, .word _ => (List.range layout.words.length).filter fun i => layout.words[i]? = some .Box
  | layout, .node name values => boxesFields (((armOf layout name).map Arm.fields).getD []) values

/-- The references of fields. -/
def boxesFields : List (Field Layout) → List Value → List Nat
  | field :: fields, value :: values =>
    (boxes field.layout value).map (field.offset + ·) ++ boxesFields fields values
  | _, _ => []

end

/-! ## 3. Fields in a row -/

/-- The words of some fields. -/
def size : List (Field Layout) → Nat
  | [] => 0
  | field :: fields => field.layout.words.length + size fields

/-- The fields lie one after the other from an offset on. -/
def Consecutive : Nat → List (Field Layout) → Prop
  | _, [] => True
  | offset, field :: fields =>
    field.offset = offset ∧ Consecutive (offset + field.layout.words.length) fields

section Consecutive

variable {offset tag : Nat} {fields : List (Field Layout)}

theorem Consecutive.shift (h : Consecutive offset fields) :
    Consecutive (offset + tag) (fields.map (.shift tag)) := by
  induction fields generalizing offset with
  | nil => trivial
  | cons field fields ih =>
    obtain ⟨rfl, hrest⟩ := h
    refine ⟨rfl, ?_⟩
    have := ih hrest
    rwa [Nat.add_right_comm] at this

/-- A field lies within the words of all. -/
theorem Consecutive.within (h : Consecutive offset fields) {field : Field Layout}
    (hmem : field ∈ fields) : offset ≤ field.offset ∧
      field.offset + field.layout.words.length ≤ offset + size fields := by
  induction fields generalizing offset with
  | nil => cases hmem
  | cons first fields ih =>
    obtain ⟨rfl, hrest⟩ := h
    rw [size]
    rcases List.mem_cons.mp hmem with rfl | hmem
    · omega
    · have := ih hrest hmem
      omega

/-- No two fields overlap. -/
theorem Consecutive.apart (h : Consecutive offset fields) :
    fields.Pairwise fun f g => f.offset + f.layout.words.length ≤ g.offset := by
  induction fields generalizing offset with
  | nil => exact .nil
  | cons field fields ih =>
    obtain ⟨rfl, hrest⟩ := h
    exact .cons (fun g hg => (hrest.within hg).1) (ih hrest)

/-- Every word from the offset on belongs to a field. -/
theorem Consecutive.covered (h : Consecutive offset fields) {index : Nat} (hfrom : offset ≤ index)
    (hto : index < offset + size fields) :
    ∃ field ∈ fields, field.offset ≤ index ∧ index < field.offset + field.layout.words.length := by
  induction fields generalizing offset with
  | nil => simp only [size] at hto; omega
  | cons field fields ih =>
    obtain ⟨rfl, hrest⟩ := h
    rw [size] at hto
    by_cases hin : index < field.offset + field.layout.words.length
    · exact ⟨field, List.mem_cons_self .., hfrom, hin⟩
    · obtain ⟨g, hg, hbounds⟩ := ih hrest (by omega) (by omega)
      exact ⟨g, List.mem_cons_of_mem _ hg, hbounds⟩

end Consecutive

/-! ## 4. Packing -/

section Store

variable {words : List Kind} {index j : Nat} {kind : Kind}

theorem rank_widest (a b : Kind) : a.rank ≤ (a.widest b).rank ∧ b.rank ≤ (a.widest b).rank := by
  cases a <;> cases b <;> decide

theorem widest_cases (a b : Kind) : a.widest b = a ∨ a.widest b = b := by
  cases a <;> cases b <;> decide

theorem length_store (words : List Kind) (index : Nat) (kind : Kind) :
    (store words index kind).length = max words.length (index + 1) := by
  simp only [store, List.length_set, List.length_append, List.length_replicate]
  omega

/-- A store widens its own slot only. -/
theorem getD_store (words : List Kind) (index j : Nat) (kind : Kind) :
    (store words index kind).getD j .W32 =
      if j = index then (words.getD j .W32).widest kind else words.getD j .W32 := by
  have hgrown : ∀ i, (words ++ List.replicate (index + 1 - words.length) Kind.W32).getD i .W32 =
      words.getD i .W32 := by
    intro i
    by_cases hi : i < words.length
    · simp [List.getD_eq_getElem?_getD, List.getElem?_append_left hi]
    · rw [List.getD_eq_getElem?_getD, List.getElem?_append_right (by omega)]
      simp only [List.getElem?_replicate, List.getD_eq_getElem?_getD,
        List.getElem?_eq_none (Nat.le_of_not_lt hi)]
      split <;> rfl
  rw [store, hgrown, List.getD_eq_getElem?_getD, List.getElem?_set]
  by_cases hj : j = index
  · subst hj
    have hlt : j < words.length + (j + 1 - words.length) := by omega
    simp [hlt]
  · rw [if_neg (Ne.symm hj), if_neg hj, ← List.getD_eq_getElem?_getD, hgrown]

/-- Several words stored one after the other. -/
def storeAll (words : List Kind) (stored : List (Nat × Kind)) : List Kind :=
  stored.foldl (fun words p => store words p.1 p.2) words

theorem lt_length_storeAll {stored : List (Nat × Kind)} :
    j < (storeAll words stored).length ↔ j < words.length ∨ ∃ p ∈ stored, j ≤ p.1 := by
  induction stored generalizing words with
  | nil => simp [storeAll]
  | cons p stored ih =>
    have hstep : storeAll words (p :: stored) = storeAll (store words p.1 p.2) stored := rfl
    rw [hstep, ih, length_store]
    simp only [List.mem_cons, exists_eq_or_imp, ← or_assoc]
    exact or_congr_left (by omega)

/-- **A slot is as wide as what was stored there**, and no wider. -/
theorem getD_storeAll (stored : List (Nat × Kind)) (words : List Kind) (j : Nat) :
    ((storeAll words stored).getD j .W32 = words.getD j .W32 ∨
      (j, (storeAll words stored).getD j .W32) ∈ stored) ∧
    (words.getD j .W32).rank ≤ ((storeAll words stored).getD j .W32).rank ∧
    ∀ kind, (j, kind) ∈ stored → kind.rank ≤ ((storeAll words stored).getD j .W32).rank := by
  induction stored generalizing words with
  | nil => exact ⟨.inl rfl, Nat.le_refl _, fun _ h => by cases h⟩
  | cons p stored ih =>
    obtain ⟨i, k⟩ := p
    have hstep : storeAll words ((i, k) :: stored) = storeAll (store words i k) stored := rfl
    obtain ⟨hfrom, hkept, hwide⟩ := ih (store words i k)
    rw [hstep]
    rw [getD_store] at hfrom hkept
    by_cases hj : j = i
    · subst hj
      rw [if_pos rfl] at hfrom hkept
      obtain ⟨hold, hnew⟩ := rank_widest (words.getD j .W32) k
      refine ⟨?_, Nat.le_trans hold hkept, fun kind hkind => ?_⟩
      · rcases hfrom with hfrom | hfrom
        · rcases widest_cases (words.getD j .W32) k with hw | hw
          · exact .inl (hfrom.trans hw)
          · rw [hfrom, hw]
            exact .inr (List.mem_cons_self ..)
        · exact .inr (List.mem_cons_of_mem _ hfrom)
      · rcases List.mem_cons.mp hkind with heq | hkind
        · cases heq
          exact Nat.le_trans hnew hkept
        · exact hwide kind hkind
    · rw [if_neg hj] at hfrom hkept
      refine ⟨hfrom.imp_right (List.mem_cons_of_mem _), hkept, fun kind hkind => ?_⟩
      rcases List.mem_cons.mp hkind with heq | hkind
      · cases heq
        exact absurd rfl hj
      · exact hwide kind hkind

end Store

/-- A field of the arm has a word of the kind at the index. -/
def Stores (arm : Arm Layout) (index : Nat) (kind : Kind) : Prop :=
  ∃ field ∈ arm.fields, ∃ i, index = field.offset + i ∧ field.layout.words[i]? = some kind

/-- The layouts that `layout_at` builds. -/
inductive Laid : Layout → Prop where
  | word (kind : Kind) : Laid (.word kind)
  | pack {arms : List (Arm Layout)} (hfields : ∀ arm ∈ arms, Consecutive 0 arm.fields)
      (hlaid : ∀ arm ∈ arms, ∀ field ∈ arm.fields, Laid field.layout)
      (hnames : (arms.map Arm.name).Nodup) (hsmall : arms.length < 2 ^ 64) : Laid (pack arms)

/-- **A finite sum.**  The fields of an arm lie one after the other behind the index, and every
slot is as wide as the widest word that an arm stores there. -/
structure Packed (layout : Layout) (arms : List (Arm Layout)) : Prop where
  consecutive : ∀ arm ∈ arms, Consecutive (tagWords arms) arm.fields
  room : ∀ arm ∈ arms, tagWords arms + size arm.fields ≤ layout.words.length
  tag : tagWords arms ≤ layout.words.length
  names : (arms.map Arm.name).Nodup
  small : arms.length < 2 ^ 64
  laid : ∀ arm ∈ arms, ∀ field ∈ arm.fields, Laid field.layout
  index : ∀ kind, layout.words[0]? = some kind → arms.length > 1 →
    kind = .W32 ∧ ∀ arm ∈ arms, ∀ k, ¬Stores arm 0 k
  slot : ∀ i kind, layout.words[i]? = some kind → tagWords arms ≤ i →
    (∃ arm ∈ arms, Stores arm i kind) ∧ ∀ arm ∈ arms, ∀ k, Stores arm i k → k.rank ≤ kind.rank

section Pack

variable {arms : List (Arm Layout)}

/-- The arms behind the index. -/
def shifted (arms : List (Arm Layout)) : List (Arm Layout) :=
  arms.map fun arm => { arm with fields := arm.fields.map (.shift (tagWords arms)) }

/-- The words of all arms with their places. -/
def stored (arms : List (Arm Layout)) : List (Nat × Kind) :=
  arms.flatMap fun arm => arm.fields.flatMap fun field =>
    field.layout.words.zipIdx.map fun k => (field.offset + k.2, k.1)

theorem words_pack (arms : List (Arm Layout)) :
    (pack arms).words = storeAll (List.replicate (tagWords arms) .W32) (stored (shifted arms)) := by
  simp only [pack, Layout.words_mk, storeAll, stored, shifted, List.flatMap_map, List.foldl_flatMap,
    List.foldl_map, Field.shift]
  rfl

@[simp] theorem tagWords_shifted (arms : List (Arm Layout)) :
    tagWords (shifted arms) = tagWords arms := by
  simp [tagWords, shifted]

theorem mem_stored {index : Nat} {kind : Kind} :
    (index, kind) ∈ stored arms ↔ ∃ arm ∈ arms, Stores arm index kind := by
  simp only [stored, Stores, List.mem_flatMap, List.mem_map, Prod.exists, Prod.mk.injEq,
    List.mem_zipIdx_iff_getElem?]
  constructor
  · rintro ⟨arm, harm, field, hfield, k, i, hk, rfl, rfl⟩
    exact ⟨arm, harm, field, hfield, i, rfl, hk⟩
  · rintro ⟨arm, harm, field, hfield, i, rfl, hk⟩
    exact ⟨arm, harm, field, hfield, kind, i, hk, rfl, rfl⟩

/-- Within the fields of an arm every index is stored. -/
theorem Consecutive.stores {offset : Nat} {arm : Arm Layout}
    (h : Consecutive offset arm.fields) {index : Nat} (hfrom : offset ≤ index)
    (hto : index < offset + size arm.fields) : ∃ kind, Stores arm index kind := by
  obtain ⟨field, hmem, hleft, hright⟩ := h.covered hfrom hto
  have hlt : index - field.offset < field.layout.words.length := by omega
  exact ⟨_, field, hmem, index - field.offset, by omega, List.getElem?_eq_getElem hlt⟩

theorem Stores.within {offset index : Nat} {arm : Arm Layout} {kind : Kind}
    (h : Stores arm index kind) (hfields : Consecutive offset arm.fields) :
    offset ≤ index ∧ index < offset + size arm.fields := by
  obtain ⟨field, hmem, i, rfl, hi⟩ := h
  obtain ⟨hlt, -⟩ := List.getElem?_eq_some_iff.mp hi
  have := hfields.within hmem
  omega

/-- **What `pack` builds.** -/
theorem packed (hfields : ∀ arm ∈ arms, Consecutive 0 arm.fields)
    (hlaid : ∀ arm ∈ arms, ∀ field ∈ arm.fields, Laid field.layout)
    (hnames : (arms.map Arm.name).Nodup) (hsmall : arms.length < 2 ^ 64) :
    Packed (pack arms) (shifted arms) := by
  have hrow : ∀ arm ∈ shifted arms, Consecutive (tagWords arms) arm.fields := by
    intro arm harm
    obtain ⟨old, hold, rfl⟩ := List.mem_map.mp harm
    have h : Consecutive (0 + tagWords arms) (old.fields.map (.shift (tagWords arms))) :=
      (hfields old hold).shift
    rwa [Nat.zero_add] at h
  have hlength : ∀ j, j < (pack arms).words.length ↔
      j < tagWords arms ∨ ∃ p ∈ stored (shifted arms), j ≤ p.1 := by
    intro j
    rw [words_pack, lt_length_storeAll, List.length_replicate]
  have hstores : ∀ arm ∈ shifted arms, ∀ index kind, Stores arm index kind →
      index < (pack arms).words.length := fun arm harm index kind h =>
    (hlength index).mpr (.inr ⟨_, mem_stored.mpr ⟨arm, harm, h⟩, Nat.le_refl _⟩)
  have hkind : ∀ i kind, (pack arms).words[i]? = some kind →
      kind = (storeAll (List.replicate (tagWords arms) .W32) (stored (shifted arms))).getD i
        .W32 := by
    intro i kind h
    rw [← words_pack, List.getD_eq_getElem?_getD, h]
    rfl
  refine
    { consecutive := fun arm harm => ?_, room := fun arm harm => ?_, tag := ?_, names := ?_
      small := ?_, laid := fun arm harm => ?_, index := fun kind hget hmany => ?_
      slot := fun i kind hget hfrom => ?_ }
  · rw [tagWords_shifted]
    exact hrow arm harm
  · rw [tagWords_shifted]
    by_contra hlong
    have htag : tagWords arms ≤ (pack arms).words.length := by
      by_contra htag
      exact absurd ((hlength (pack arms).words.length).mpr (.inl (by omega))) (Nat.lt_irrefl _)
    obtain ⟨kind, h⟩ := (hrow arm harm).stores htag (by omega)
    exact absurd (hstores arm harm _ kind h) (Nat.lt_irrefl _)
  · rw [tagWords_shifted]
    by_contra htag
    exact absurd ((hlength (pack arms).words.length).mpr (.inl (by omega))) (Nat.lt_irrefl _)
  · rw [shifted, List.map_map]
    exact hnames
  · rw [shifted, List.length_map]
    exact hsmall
  · obtain ⟨old, hold, rfl⟩ := List.mem_map.mp harm
    intro field hfield
    obtain ⟨oldField, holdField, rfl⟩ := List.mem_map.mp hfield
    exact hlaid old hold oldField holdField
  · have htag : tagWords arms = 1 := by
      rw [tagWords, if_pos (by rwa [shifted, List.length_map] at hmany)]
    have hnone : ∀ arm ∈ shifted arms, ∀ k, ¬Stores arm 0 k := fun arm harm k h => by
      have := (h.within (hrow arm harm)).1
      omega
    refine ⟨?_, hnone⟩
    rw [hkind 0 kind hget]
    rcases (getD_storeAll (stored (shifted arms)) (List.replicate (tagWords arms) .W32) 0).1
      with h | h
    · rw [h, htag]
      rfl
    · obtain ⟨arm, harm, h⟩ := mem_stored.mp h
      exact absurd h (hnone arm harm _)
  · rw [tagWords_shifted] at hfrom
    obtain ⟨hsource, -, hwide⟩ :=
      getD_storeAll (stored (shifted arms)) (List.replicate (tagWords arms) .W32) i
    rw [← hkind i kind hget] at hsource hwide
    have hall : ∀ arm ∈ shifted arms, ∀ k, Stores arm i k → k.rank ≤ kind.rank :=
      fun arm harm k h => hwide k (mem_stored.mpr ⟨arm, harm, h⟩)
    refine ⟨?_, hall⟩
    rcases hsource with hblank | hstored
    · obtain ⟨hlt, -⟩ := List.getElem?_eq_some_iff.mp hget
      obtain hlow | ⟨⟨j, k⟩, hp, hle⟩ := (hlength i).mp hlt
      · omega
      · obtain ⟨arm, harm, h⟩ := mem_stored.mp hp
        have hto := (h.within (hrow arm harm)).2
        obtain ⟨k', h'⟩ := (hrow arm harm).stores hfrom (Nat.lt_of_le_of_lt hle hto)
        have hrank := hall arm harm k' h'
        have hnarrow : kind = .W32 := by
          rw [hblank, List.getD_eq_getElem?_getD, List.getElem?_replicate]
          split <;> rfl
        have hsame : k' = kind := by
          rw [hnarrow] at hrank ⊢
          cases k' with
          | W32 => rfl
          | W64 | Box => exact absurd hrank (by decide)
        exact ⟨arm, harm, hsame ▸ h'⟩
    · exact mem_stored.mp hstored

/-- **The layouts of the generator.** -/
theorem Laid.packed {layout : Layout} (h : Laid layout) (harms : layout.arms = some arms) :
    Packed layout arms := by
  cases h with
  | word kind => cases harms
  | pack hfields hlaid hnames hsmall =>
    cases harms
    exact Layouts.packed hfields hlaid hnames hsmall

end Pack

section Build

variable {program : Program} {layoutOf : Term → Except String Layout}

/-- The fields are laid out one after the other, each in a proper layout. -/
theorem fieldsFrom_laid (hlaid : ∀ ty layout, layoutOf ty = .ok layout → Laid layout)
    {types : List Term} {offset : Nat} {fields : List (Field Layout)}
    (h : fieldsFrom layoutOf types offset = .ok fields) :
    Consecutive offset fields ∧ ∀ field ∈ fields, Laid field.layout := by
  induction types generalizing offset fields with
  | nil =>
    cases h
    exact ⟨trivial, by simp⟩
  | cons ty types ih =>
    rw [fieldsFrom] at h
    cases hty : layoutOf ty with
    | error message => simp [hty, bind, Except.bind] at h
    | ok layout =>
      simp only [hty, bind, Except.bind] at h
      split at h
      · cases h
      · split at h
        · cases h
        · rename_i rest hrest
          cases h
          obtain ⟨hrow, hlaidRest⟩ := ih hrest
          refine ⟨⟨rfl, hrow⟩, fun field hmem => ?_⟩
          rcases List.mem_cons.mp hmem with rfl | hmem
          · exact hlaid ty layout hty
          · exact hlaidRest field hmem

theorem armsOf_laid {layoutOf : ConstructorDecl → Term → Except String Layout}
    (hlaid : ∀ constructor ty layout, layoutOf constructor ty = .ok layout → Laid layout)
    {datatype : AdtDecl} {args : List Term} {constructors : List ConstructorDecl}
    {arms : List (Arm Layout)} (h : armsOf layoutOf datatype args constructors = .ok arms) :
    (∀ arm ∈ arms, Consecutive 0 arm.fields ∧ ∀ field ∈ arm.fields, Laid field.layout) ∧
      arms.map (·.name) = constructors.map (·.name) := by
  induction constructors generalizing arms with
  | nil =>
    cases h
    exact ⟨by simp, rfl⟩
  | cons constructor constructors ih =>
    rw [armsOf] at h
    cases hfields : fieldsFrom (layoutOf constructor) (fieldTypes datatype args constructor) 0 with
    | error message => simp [hfields, bind, Except.bind] at h
    | ok fields =>
      simp only [hfields, bind, Except.bind] at h
      split at h
      · cases h
      · rename_i rest hrest
        cases h
        obtain ⟨hall, hnames⟩ := ih hrest
        refine ⟨fun arm hmem => ?_, by rw [List.map_cons, hnames]; rfl⟩
        rcases List.mem_cons.mp hmem with rfl | hmem
        · exact fieldsFrom_laid (hlaid constructor) hfields
        · exact hall arm hmem

/-- Every layout that is computed is proper. -/
theorem layoutAt_laid {fuel : Nat} {fixed : Option (List Nat)} {ty : Term} {layout : Layout}
    (h : layoutAt program fuel fixed ty = .ok layout) : Laid layout := by
  induction fuel generalizing fixed ty layout with
  | zero => cases h
  | succ fuel ih =>
    obtain ⟨exposed, -, ⟨name, args, excluded, rfl, h⟩ | ⟨-, -, rfl⟩⟩ := layoutAt_cases h
    · obtain ⟨kind, hword⟩ | ⟨datatype, hlookup, hsum⟩ := datatypeLayout_by_name program name
      · rw [hword] at h
        cases kind with
        | error message => cases h
        | ok kind =>
          cases h
          exact .word kind
      · rw [hsum] at h
        split at h
        · cases h
        · cases harms : armsOf _ datatype args datatype.constructors with
          | error message =>
            rw [harms] at h
            cases h
          | ok arms =>
            rw [harms] at h
            cases h
            obtain ⟨hall, hnames⟩ := armsOf_laid (fun _ _ _ => ih) harms
            obtain ⟨before, after, hsplit, -⟩ := List.lookup_eq_some_iff.mp hlookup
            have hmem : (name, datatype) ∈ program.datatypes :=
              hsplit ▸ List.mem_append_right _ (List.mem_cons_self ..)
            have hlength : arms.length = datatype.constructors.length := by
              rw [← List.length_map (f := Arm.name), hnames, List.length_map]
            exact .pack (fun arm harm => (hall arm harm).1) (fun arm harm => (hall arm harm).2)
              (hnames ▸ program.distinct _ hmem) (hlength ▸ program.small _ hmem)
    · exact .word _

end Build

/-! ## 5. Assembling and reading -/

/-- The values have the widths of the fields. -/
abbrev Widths (fields : List (Field Layout)) (values : List (List UInt64)) : Prop :=
  List.Forall₂ (fun field value => value.length = field.layout.words.length) fields values

section Words

variable {offset : Nat} {fields : List (Field Layout)} {values : List (List UInt64)}

theorem Widths.length (h : Widths fields values) : values.flatten.length = size fields := by
  induction h with
  | nil => rfl
  | cons hwidth _ ih => rw [List.flatten_cons, List.length_append, ih, hwidth, size]

/-- **The fields of an arm make one stretch of the vector.** -/
theorem copyFields_eq (hrow : Consecutive offset fields) (hwidths : Widths fields values)
    {words : List UInt64} (hroom : offset + size fields ≤ words.length) :
    copyFields fields values words =
      .ok (words.take offset ++ values.flatten ++ words.drop (offset + size fields)) := by
  induction hwidths generalizing offset words with
  | nil => simp [copyFields, size]
  | @cons field value fields values hwidth _ ih =>
    obtain ⟨rfl, hrest⟩ := hrow
    rw [size] at hroom ⊢
    have hcopy : copyAt words field.offset value =
        .ok (words.take field.offset ++ value ++ words.drop (field.offset + value.length)) :=
      if_pos (by omega)
    have hfront : (words.take field.offset ++ value).length =
        field.offset + field.layout.words.length := by
      rw [List.length_append, List.length_take, hwidth]
      omega
    rw [copyFields, hcopy]
    refine (ih hrest ?_).trans ?_
    · rw [List.length_append, hfront, List.length_drop]
      omega
    · rw [List.take_left' hfront, ← hfront, List.drop_length_add_append, List.drop_drop, hwidth,
        List.flatten_cons, List.append_assoc, List.append_assoc, List.append_assoc,
        List.append_assoc, Nat.add_assoc]

/-- **Reading the fields back.** -/
theorem sliceFields_eq (hrow : Consecutive offset fields) (hwidths : Widths fields values)
    {front : List UInt64} (back : List UInt64) (hfront : front.length = offset) :
    sliceFields (front ++ values.flatten ++ back) fields = .ok values := by
  induction hwidths generalizing offset front with
  | nil => rfl
  | @cons field value fields values hwidth hrestWidths ih =>
    obtain ⟨rfl, hrest⟩ := hrow
    have hslice : slice (front ++ (value :: values).flatten ++ back) field.offset
        field.layout.words.length = .ok value := by
      rw [slice, if_pos (by simp only [List.flatten_cons, List.length_append]; omega),
        List.flatten_cons, List.append_assoc, List.append_assoc, ← hfront, List.drop_left, ← hwidth,
        List.take_left]
    have hagain : front ++ (value :: values).flatten ++ back =
        (front ++ value) ++ values.flatten ++ back := by simp
    rw [sliceFields, hslice, hagain]
    simp only [bind, Except.bind]
    rw [ih hrest (by rw [List.length_append, hfront, hwidth])]

end Words

section Select

variable {layout : Layout} {arms : List (Arm Layout)} {arm other : Arm Layout}

theorem exists_findIdx (hnames : (arms.map Arm.name).Nodup) (hmem : arm ∈ arms) :
    ∃ index, arms.findIdx? (·.name = arm.name) = some index ∧ arms[index]? = some arm := by
  induction arms with
  | nil => cases hmem
  | cons first arms ih =>
    rw [List.map_cons, List.nodup_cons] at hnames
    rcases List.mem_cons.mp hmem with rfl | hmem
    · exact ⟨0, by simp [List.findIdx?_cons], rfl⟩
    · obtain ⟨index, hindex, hget⟩ := ih hnames.2 hmem
      have hne : ¬first.name = arm.name :=
        fun heq => hnames.1 (List.mem_map.mpr ⟨arm, hmem, heq.symm⟩)
      exact ⟨index + 1, by simp [List.findIdx?_cons, hne, hindex], hget⟩

/-- An arm is found by its name. -/
theorem find_arm (hnames : (arms.map Arm.name).Nodup) (hmem : arm ∈ arms) :
    arms.find? (·.name = arm.name) = some arm := by
  induction arms with
  | nil => cases hmem
  | cons first arms ih =>
    rw [List.map_cons, List.nodup_cons] at hnames
    rcases List.mem_cons.mp hmem with rfl | hmem
    · simp
    · have hne : ¬first.name = arm.name :=
        fun heq => hnames.1 (List.mem_map.mpr ⟨arm, hmem, heq.symm⟩)
      rw [List.find?_cons_of_neg (by simpa using hne)]
      exact ih hnames.2 hmem

theorem ofNat_eq_iff {i j : Nat} (hi : i < 2 ^ 64) (hj : j < 2 ^ 64) :
    (UInt64.ofNat i == UInt64.ofNat j) = decide (i = j) := by
  rw [Bool.eq_iff_iff, beq_iff_eq, decide_eq_true_iff, ← UInt64.toNat_inj, UInt64.toNat_ofNat',
    UInt64.toNat_ofNat', Nat.mod_eq_of_lt hi, Nat.mod_eq_of_lt hj]

/-- A vector of an arm: the index, the words of the fields, and a rest. -/
structure Assembled (arms : List (Arm Layout)) (arm : Arm Layout) (values : List (List UInt64))
    (words : List UInt64) : Prop where
  parts : ∃ front back, words = front ++ values.flatten ++ back ∧ front.length = tagWords arms
  index : arms.length > 1 → ∃ index, arms.findIdx? (·.name = arm.name) = some index ∧
    arms[index]? = some arm ∧ words.head? = some (.ofNat index)

/-- **`flat_constructor` assembles the vector.** -/
theorem Packed.assembled (h : Packed layout arms) (hmem : arm ∈ arms)
    {values : List (List UInt64)} (hwidths : Widths arm.fields values) :
    ∃ words, flatConstructor layout arms arm.name values = .ok words ∧
      words.length = layout.words.length ∧ Assembled arms arm values words := by
  obtain ⟨index, hindex, hget⟩ := exists_findIdx h.names hmem
  have hroom := h.room arm hmem
  obtain ⟨blankWords, hblank, hlength, hhead⟩ : ∃ words, blank layout arms index = .ok words ∧
      words.length = layout.words.length ∧
      (arms.length > 1 → words.head? = some (.ofNat index)) := by
    by_cases hmany : arms.length > 1
    · have htag : 0 < layout.words.length := by
        have := h.tag
        rw [tagWords, if_pos hmany] at this
        omega
      have hsome : ¬(List.replicate layout.words.length (0 : UInt64)).isEmpty := by
        rw [List.isEmpty_iff_length_eq_zero, List.length_replicate]
        omega
      refine ⟨_, (if_pos hmany).trans (if_neg hsome), by simp, fun _ => ?_⟩
      rw [List.head?_eq_getElem?, List.getElem?_set_self (by simpa using htag)]
    · exact ⟨_, if_neg hmany, by simp, fun h => absurd h hmany⟩
  have hcopy := copyFields_eq (h.consecutive arm hmem) hwidths (hlength ▸ hroom)
  refine ⟨blankWords.take (tagWords arms) ++ values.flatten ++
    blankWords.drop (tagWords arms + size arm.fields), ?_, ?_,
    ⟨blankWords.take (tagWords arms), _, rfl, ?_⟩, fun hmany => ⟨index, hindex, hget, ?_⟩⟩
  · rw [flatConstructor, hindex]
    simp only [hget]
    rw [if_neg (by simp [hwidths.length_eq]), hblank]
    exact hcopy
  · simp only [List.length_append, List.length_take, List.length_drop, Widths.length hwidths]
    omega
  · rw [List.length_take]
    omega
  · have hone : tagWords arms = 1 := if_pos hmany
    have hfirst := hhead hmany
    rw [hone]
    cases blankWords with
    | nil => cases hfirst
    | cons w rest => exact hfirst

/-- **The condition of a constructor holds on its own vectors only.** -/
theorem Assembled.condition {values : List (List UInt64)} {words : List UInt64}
    (h : Assembled arms arm values words) (hpacked : Packed layout arms) (hmem : arm ∈ arms)
    (hother : other ∈ arms) :
    flatMatchCondition arms other.name words = .ok (decide (other.name = arm.name)) := by
  by_cases hone : arms.length = 1
  · obtain ⟨only, rfl⟩ := List.length_eq_one_iff.mp hone
    rw [List.mem_singleton] at hmem hother
    rw [flatMatchCondition, if_pos hone, hmem, hother]
    simp
  · have hmany : arms.length > 1 := by
      have := List.length_pos_of_mem hmem
      omega
    obtain ⟨index, hindex, hget, hhead⟩ := h.index hmany
    obtain ⟨tag, htag, hgetTag⟩ := exists_findIdx hpacked.names hother
    obtain ⟨hlt, -⟩ := List.getElem?_eq_some_iff.mp hget
    obtain ⟨hltTag, -⟩ := List.getElem?_eq_some_iff.mp hgetTag
    have hsame : index = tag ↔ other.name = arm.name := by
      constructor
      · rintro rfl
        rw [hget] at hgetTag
        cases hgetTag
        rfl
      · intro heq
        rw [heq, hindex] at htag
        exact Option.some.inj htag
    rw [flatMatchCondition, if_neg hone, htag]
    simp only [hhead]
    rw [ofNat_eq_iff (Nat.lt_trans hlt hpacked.small) (Nat.lt_trans hltTag hpacked.small)]
    exact congrArg Except.ok (decide_eq_decide.mpr hsame)

/-- **The fields come back as they were put in.** -/
theorem Assembled.fields {values : List (List UInt64)} {words : List UInt64}
    (h : Assembled arms arm values words) (hpacked : Packed layout arms) (hmem : arm ∈ arms)
    (hwidths : Widths arm.fields values) :
    flatMatchFields arms arm.name words = .ok values := by
  obtain ⟨front, back, rfl, hfront⟩ := h.parts
  rw [flatMatchFields, find_arm hpacked.names hmem]
  exact sliceFields_eq (hpacked.consecutive arm hmem) hwidths back hfront

end Select

/-! ## 6. The ownership mask -/

/-- Several entries of the mask. -/
def markAll (mask : List Bool) (indices : List Nat) : List Bool :=
  indices.foldl (fun mask i => mask.set i true) mask

@[simp] theorem length_markAll (mask : List Bool) (indices : List Nat) :
    (markAll mask indices).length = mask.length := by
  induction indices generalizing mask with
  | nil => rfl
  | cons i indices ih => exact (ih (mask.set i true)).trans List.length_set

theorem markAll_append (mask : List Bool) (indices more : List Nat) :
    markAll mask (indices ++ more) = markAll (markAll mask indices) more := List.foldl_append

/-- The mask is set exactly at what was marked. -/
theorem getElem?_markAll {mask : List Bool} {indices : List Nat} {i : Nat} :
    (markAll mask indices)[i]? = some true ↔
      i < mask.length ∧ (i ∈ indices ∨ mask[i]? = some true) := by
  induction indices generalizing mask with
  | nil =>
    simp only [markAll, List.foldl_nil, List.not_mem_nil, false_or, iff_and_self]
    exact fun h => (List.getElem?_eq_some_iff.mp h).1
  | cons j indices ih =>
    have hstep : markAll mask (j :: indices) = markAll (mask.set j true) indices := rfl
    rw [hstep, ih, List.length_set, List.mem_cons]
    refine and_congr_right fun hi => ?_
    by_cases hij : i = j
    · subst hij
      simp [hi]
    · rw [List.getElem?_set_ne (Ne.symm hij)]
      simp [hij]

/-- The words stand in the input from the offset on. -/
def At (input : List UInt64) (offset : Nat) (words : List UInt64) : Prop :=
  ∃ front back, input = front ++ words ++ back ∧ front.length = offset

theorem At.append {input front words back : List UInt64} {offset inner : Nat}
    (h : At input offset (front ++ words ++ back)) (hfront : front.length = inner) :
    At input (offset + inner) words := by
  obtain ⟨before, after, rfl, hbefore⟩ := h
  exact ⟨before ++ front, back ++ after, by simp, by rw [List.length_append, hbefore, hfront]⟩

theorem At.head {input words : List UInt64} {offset : Nat} {w : UInt64} (h : At input offset words)
    (hhead : words.head? = some w) : input[offset]? = some w := by
  obtain ⟨front, back, rfl, rfl⟩ := h
  cases words with
  | nil => cases hhead
  | cons first rest =>
    cases hhead
    simp

/-- The mask code marks the references of the value. -/
def Masks (layout : Layout) (value : Value) (words : List UInt64) : Prop :=
  ∀ input offset mask, At input offset words → offset + words.length ≤ mask.length →
    fillOwnershipMask input layout offset mask =
      .ok (markAll mask ((boxes layout value).map (offset + ·)))

/-- The values of fields with their vectors. -/
abbrev Assembly (fields : List (Field Layout)) (values : List (Value × List UInt64)) : Prop :=
  List.Forall₂ (fun field value => value.2.length = field.layout.words.length ∧
    Masks field.layout value.1 value.2) fields values

section Mask

variable {layout : Layout} {arms : List (Arm Layout)} {arm : Arm Layout} {input : List UInt64}
  {mask : List Bool} {offset : Nat}

theorem Assembly.widths {fields : List (Field Layout)} {values : List (Value × List UInt64)}
    (h : Assembly fields values) : Widths fields (values.map (·.2)) := by
  induction h with
  | nil => exact .nil
  | cons hfield _ ih => exact .cons hfield.1 ih

theorem masks_word (kind : Kind) (w : UInt64) : Masks (.word kind) (.word w) [w] := by
  intro input offset mask _ hroom
  have hlt : offset < mask.length := hroom
  cases kind with
  | Box =>
    have hboxes : boxes (.word .Box) (.word w) = [0] := rfl
    rw [hboxes, Layout.word, fillOwnershipMask]
    simp [markWords, mark, hlt, markAll, bind, Except.bind]
  | W32 | W64 => rfl

/-- **The fields of an arm**, each at its place. -/
theorem fillFields_eq {fields : List (Field Layout)} {values : List (Value × List UInt64)}
    (h : Assembly fields values) {inner : Nat} (hrow : Consecutive inner fields)
    (hat : At input (offset + inner) (values.map (·.2)).flatten)
    (hroom : offset + inner + size fields ≤ mask.length) :
    fillFields input fields offset mask =
      .ok (markAll mask ((boxesFields fields (values.map (·.1))).map (offset + ·))) := by
  induction h generalizing inner mask with
  | nil => rfl
  | @cons field value fields values hfield _ ih =>
    obtain ⟨place, layout⟩ := field
    obtain ⟨hwidth, hmasks⟩ := hfield
    have hplace : place = inner := hrow.1
    subst hplace
    have hrest : Consecutive (place + layout.words.length) fields := hrow.2
    simp only [size] at hroom hwidth
    have hfirst : At input (offset + place) value.2 := by
      obtain ⟨front, back, rfl, hfront⟩ := hat
      exact ⟨front, (values.map (·.2)).flatten ++ back, by simp, hfront⟩
    have hothers : At input (offset + (place + layout.words.length))
        (values.map (·.2)).flatten := by
      obtain ⟨front, back, rfl, hfront⟩ := hat
      refine ⟨front ++ value.2, back, by simp, ?_⟩
      rw [List.length_append, hfront, hwidth]
      omega
    have hfill := hmasks input (offset + place) mask hfirst (by omega)
    have hlater : fillFields input fields offset
        (markAll mask ((boxes layout value.1).map (offset + place + ·))) = _ :=
      ih hrest hothers (by rw [length_markAll]; omega)
    rw [fillFields, hfill]
    simp only [bind, Except.bind, hlater]
    rw [← markAll_append, List.map_cons, boxesFields, List.map_append, List.map_map]
    simp only [Function.comp_def, Nat.add_assoc]

theorem fillSwitch_eq {index : Nat} (hget : arms[index]? = some arm) :
    fillSwitch input arms index offset mask = fillFields input arm.fields offset mask := by
  induction arms generalizing index with
  | nil => cases hget
  | cons first arms ih =>
    cases index with
    | zero =>
      cases hget
      rfl
    | succ index => exact ih hget

/-- **The mask of a sum is the mask of the arm that is selected.** -/
theorem fillOwnershipMask_eq {values : List (Value × List UInt64)} {words : List UInt64}
    (hpacked : Packed layout arms) (harms : layout.arms = some arms) (hmem : arm ∈ arms)
    (hassembled : Assembled arms arm (values.map (·.2)) words) (hat : At input offset words) :
    fillOwnershipMask input layout offset mask = fillFields input arm.fields offset mask := by
  obtain ⟨kinds, _⟩ := layout
  cases harms
  rw [fillOwnershipMask]
  by_cases hmany : arms.length > 1
  · obtain ⟨index, -, hget, hhead⟩ := hassembled.index hmany
    obtain ⟨hlt, -⟩ := List.getElem?_eq_some_iff.mp hget
    have htag : (UInt64.ofNat index).toNat = index := by
      rw [UInt64.toNat_ofNat', Nat.mod_eq_of_lt (Nat.lt_trans hlt hpacked.small)]
    simp only [if_pos hmany, hat.head hhead, htag]
    exact fillSwitch_eq hget
  · have hone : arms = [arm] := by
      cases arms with
      | nil => cases hmem
      | cons first rest =>
        cases rest with
        | nil => rw [List.mem_singleton.mp hmem]
        | cons second rest => exact absurd (by simp) hmany
    obtain ⟨name, fields⟩ := arm
    simp only [hone, fillArms]
    cases fillFields input fields offset mask <;> rfl

/-- The fields of an arm have vectors when their values do. -/
theorem exists_assembleFields {fields : List (Field Layout)} {values : List Value}
    (hvalues : ∀ value ∈ values, ∀ {layout : Layout}, Laid layout → Fits layout value →
      ∃ words, assemble layout value = .ok words ∧ words.length = layout.words.length ∧
        Masks layout value words)
    (hlaid : ∀ field ∈ fields, Laid field.layout)
    (hfits : List.Forall₂ (fun field value => Fits field.layout value) fields values) :
    ∃ pairs : List (Value × List UInt64), pairs.map (·.1) = values ∧ Assembly fields pairs ∧
      assembleFields fields values = .ok (pairs.map (·.2)) := by
  induction hfits with
  | nil => exact ⟨[], rfl, .nil, rfl⟩
  | @cons field value fields values hfit _ ih =>
    obtain ⟨words, hwords, hlength, hmasks⟩ :=
      hvalues value (List.mem_cons_self ..) (hlaid field (List.mem_cons_self ..)) hfit
    obtain ⟨pairs, hpairs, hassembly, hrest⟩ :=
      ih (fun v hv => hvalues v (List.mem_cons_of_mem _ hv))
        fun f hf => hlaid f (List.mem_cons_of_mem _ hf)
    refine ⟨(value, words) :: pairs, by rw [List.map_cons, hpairs],
      .cons ⟨hlength, hmasks⟩ hassembly, ?_⟩
    rw [assembleFields, hwords, hrest]
    rfl

/-- **Every value of a layout has a vector, and its mask is exact.** -/
theorem exists_assemble {value : Value} (hlaid : Laid layout) (hfits : Fits layout value) :
    ∃ words, assemble layout value = .ok words ∧ words.length = layout.words.length ∧
      Masks layout value words := by
  induction value generalizing layout with
  | word w =>
    cases hfits with
    | @word kind => exact ⟨[w], rfl, rfl, masks_word kind w⟩
  | node name values ih =>
    cases hfits with
    | @node kinds arms arm _ hmem hfields =>
      have hpacked : Packed (.mk kinds (some arms)) arms := hlaid.packed rfl
      obtain ⟨pairs, rfl, hassembly, hassemble⟩ :=
        exists_assembleFields ih (hpacked.laid arm hmem) hfields
      obtain ⟨words, hwords, hlength, hassembled⟩ := hpacked.assembled hmem hassembly.widths
      have harm : armOf (.mk kinds (some arms)) arm.name = some arm := find_arm hpacked.names hmem
      refine ⟨words, ?_, hlength, fun input offset mask hat hroom => ?_⟩
      · rw [assemble, harm]
        simp only [Option.map_some, Option.getD_some, hassemble]
        exact hwords
      · have hinner := hpacked.room arm hmem
        obtain ⟨front, back, rfl, hfront⟩ := hassembled.parts
        rw [fillOwnershipMask_eq hpacked rfl hmem hassembled hat,
          fillFields_eq hassembly (hpacked.consecutive arm hmem) (hat.append hfront) (by omega),
          boxes, harm]
        rfl

theorem boxesFields_lt {fields : List (Field Layout)} {values : List Value}
    (hvalues : ∀ value ∈ values, ∀ {layout : Layout}, Laid layout → Fits layout value →
      ∀ i ∈ boxes layout value, i < layout.words.length)
    (hlaid : ∀ field ∈ fields, Laid field.layout) (hrow : Consecutive offset fields)
    (hfits : List.Forall₂ (fun field value => Fits field.layout value) fields values) :
    ∀ i ∈ boxesFields fields values, i < offset + size fields := by
  induction hfits generalizing offset with
  | nil => simp [boxesFields]
  | @cons field value fields values hfit _ ih =>
    obtain ⟨rfl, hrest⟩ := hrow
    intro i hi
    rw [boxesFields, List.mem_append, List.mem_map] at hi
    rw [size]
    rcases hi with ⟨j, hj, rfl⟩ | hi
    · have := hvalues value (List.mem_cons_self ..) (hlaid field (List.mem_cons_self ..)) hfit j hj
      omega
    · have := ih (fun v hv => hvalues v (List.mem_cons_of_mem _ hv))
        (fun f hf => hlaid f (List.mem_cons_of_mem _ hf)) hrest i hi
      omega

/-- The references of a value are words of its vector. -/
theorem boxes_lt {value : Value} (hlaid : Laid layout) (hfits : Fits layout value) :
    ∀ i ∈ boxes layout value, i < layout.words.length := by
  induction value generalizing layout with
  | word w =>
    intro i hi
    rw [boxes, List.mem_filter, List.mem_range] at hi
    exact hi.1
  | node name values ih =>
    cases hfits with
    | @node kinds arms arm _ hmem hfields =>
      have hpacked : Packed (.mk kinds (some arms)) arms := hlaid.packed rfl
      have harm : armOf (.mk kinds (some arms)) arm.name = some arm := find_arm hpacked.names hmem
      have hroom := hpacked.room arm hmem
      intro i hi
      rw [boxes, harm] at hi
      have := boxesFields_lt ih (hpacked.laid arm hmem) (hpacked.consecutive arm hmem) hfields i hi
      omega

end Mask

/-! ## 7. The layouts of a program -/

/-- A layout that stands in another one. -/
inductive Within : Layout → Layout → Prop where
  | self {layout : Layout} : Within layout layout
  | field {inner layout : Layout} {arms : List (Arm Layout)} {arm : Arm Layout}
      {field : Field Layout} (harms : layout.arms = some arms) (harm : arm ∈ arms)
      (hfield : field ∈ arm.fields) (h : Within inner field.layout) : Within inner layout

theorem Within.laid {inner layout : Layout} (h : Within inner layout) (hlaid : Laid layout) :
    Laid inner := by
  induction h with
  | self => exact hlaid
  | field harms harm hfield _ ih => exact ih ((hlaid.packed harms).laid _ harm _ hfield)

/-- **The slots of a sum**: fields overlap neither each other nor the index, and a slot is as wide
as the widest word that an arm has there. -/
structure Slots (layout : Layout) : Prop where
  apart : ∀ arms, layout.arms = some arms → ∀ arm ∈ arms,
    (arm.fields.Pairwise fun f g => f.offset + f.layout.words.length ≤ g.offset) ∧
      ∀ field ∈ arm.fields, tagWords arms ≤ field.offset ∧
        field.offset + field.layout.words.length ≤ layout.words.length
  index : ∀ arms, layout.arms = some arms → arms.length > 1 → layout.words.head? = some .W32
  widest : ∀ arms, layout.arms = some arms → ∀ i kind, layout.words[i]? = some kind →
    tagWords arms ≤ i → (∃ arm ∈ arms, Stores arm i kind) ∧
      ∀ arm ∈ arms, ∀ k, Stores arm i k → k.rank ≤ kind.rank

/-- A proper layout keeps the fields of an arm apart and each slot as wide as needed. -/
theorem Laid.slots {layout : Layout} (h : Laid layout) : Slots layout where
  apart arms harms arm harm := by
    have hpacked := h.packed harms
    have hroom := hpacked.room arm harm
    refine ⟨(hpacked.consecutive arm harm).apart, fun field hfield => ?_⟩
    have := (hpacked.consecutive arm harm).within hfield
    omega
  index arms harms hmany := by
    have hpacked := h.packed harms
    have hlt : 0 < layout.words.length := by
      have := hpacked.tag
      rw [tagWords, if_pos hmany] at this
      omega
    have hget := List.getElem?_eq_getElem hlt
    rw [List.head?_eq_getElem?, hget, (hpacked.index _ hget hmany).1]
  widest arms harms i kind hget hfrom := (h.packed harms).slot i kind hget hfrom

/-- **What a vector gives back**: the condition of an arm holds if and only if it is the arm of the
value, and the fields of that arm are the words that were put in. -/
def Lossless (layout : Layout) (value : Value) (words : List UInt64) : Prop :=
  ∀ arms name values, layout.arms = some arms → value = .node name values →
    (∀ arm ∈ arms, flatMatchCondition arms arm.name words = .ok (decide (arm.name = name))) ∧
    ∃ arm fields, armOf layout name = some arm ∧ assembleFields arm.fields values = .ok fields ∧
      flatConstructor layout arms name fields = .ok words ∧
      flatMatchFields arms name words = .ok fields

/-- A value is read back from the words it was assembled into. -/
theorem lossless {layout : Layout} {value : Value} {words : List UInt64} (hlaid : Laid layout)
    (hfits : Fits layout value) (hwords : assemble layout value = .ok words) :
    Lossless layout value words := by
  rintro arms name values harms rfl
  cases hfits with
  | @node kinds arms' arm _ hmem hfields =>
    cases harms
    have hpacked : Packed (.mk kinds (some arms)) arms := hlaid.packed rfl
    have harm : armOf (.mk kinds (some arms)) arm.name = some arm := find_arm hpacked.names hmem
    obtain ⟨pairs, rfl, hassembly, hassemble⟩ :=
      exists_assembleFields (fun _ _ _ => exists_assemble) (hpacked.laid arm hmem) hfields
    obtain ⟨words', hwords', -, hassembled⟩ := hpacked.assembled hmem hassembly.widths
    have hsame : words' = words := by
      rw [assemble, harm] at hwords
      simp only [Option.map_some, Option.getD_some, hassemble] at hwords
      exact Except.ok.inj (hwords'.symm.trans hwords)
    subst hsame
    exact ⟨fun other hother => hassembled.condition hpacked hmem hother, arm, _, harm, hassemble,
      hwords', hassembled.fields hpacked hmem hassembly.widths⟩

/-- **The finite layouts of a program.**

In a layout of a type, and in every layout that stands in it, the slots are as wide as they have
to be and no two fields meet; every value has a vector that only the condition of its constructor
accepts and that gives its fields back; and the ownership mask of the vector marks the references
of the arms that the value selects, and nothing else. -/
theorem finite_layouts (program : Program) {ty : Term} {outer layout : Layout}
    (h : Layouts.layout program ty = .ok outer) (hwithin : Within layout outer) :
    Slots layout ∧ ∀ value, Fits layout value →
      ∃ words mask, assemble layout value = .ok words ∧ words.length = layout.words.length ∧
        Lossless layout value words ∧
        ownershipMask layout words = .ok mask ∧ mask.length = layout.words.length ∧
        ∀ i, mask[i]? = some true ↔ i ∈ boxes layout value := by
  have hlaid := hwithin.laid (layoutAt_laid h)
  refine ⟨hlaid.slots, fun value hfits => ?_⟩
  obtain ⟨words, hwords, hlength, hmasks⟩ := exists_assemble hlaid hfits
  have hmask := hmasks words 0 (.replicate layout.words.length false) ⟨[], [], by simp, rfl⟩
    (by simp [hlength])
  refine ⟨words, _, hwords, hlength, lossless hlaid hfits hwords, hmask, by simp, fun i => ?_⟩
  rw [getElem?_markAll, List.length_replicate, List.getElem?_replicate]
  have hids : (boxes layout value).map (0 + ·) = boxes layout value := by simp
  rw [hids]
  constructor
  · rintro ⟨_, hi | hi⟩
    · exact hi
    · split at hi <;> cases hi
  · exact fun hi => ⟨boxes_lt hlaid hfits i hi, .inl hi⟩

/-- A program with one datatype, of a natural number or a function. -/
def eitherProgram : Program where
  exposeType := .ok
  baseNames := ["Nat"]
  datatypes := [("Either", ⟨"Either", [], .Qnt,
    [⟨"Left", [⟨.Lone, "n", 1, .Adt "Nat" [] []⟩]⟩,
      ⟨"Right", [⟨.Lone, "f", 2, .All .Lone "x" 3 .Qnt .Qnt⟩]⟩]⟩)]
  distinct := by decide
  small := by decide

/-- The number and the function share a slot, and only the function is a reference. -/
theorem either_words : ∃ words mask,
    assemble (pack [⟨"Left", [⟨0, .word .W64⟩]⟩, ⟨"Right", [⟨0, .word .Box⟩]⟩])
      (.node "Right" [.word 7]) = .ok words ∧
    ownershipMask (pack [⟨"Left", [⟨0, .word .W64⟩]⟩, ⟨"Right", [⟨0, .word .Box⟩]⟩]) words =
      .ok mask ∧
    mask[1]? = some true := by
  have hfits : Fits (pack [⟨"Left", [⟨0, .word .W64⟩]⟩, ⟨"Right", [⟨0, .word .Box⟩]⟩])
      (.node "Right" [.word 7]) :=
    @Fits.node _ _ ⟨"Right", [⟨1, .word .Box⟩]⟩ _ (.tail _ (.head _)) (.cons .word .nil)
  obtain ⟨words, mask, hwords, -, -, hmask, -, hiff⟩ :=
    (@finite_layouts eitherProgram (.Adt "Either" [] []) _ _ rfl .self).2 _ hfits
  exact ⟨words, mask, hwords, hmask, (hiff 1).mpr (.head _)⟩

end TeamyBend.Compiler.Layouts
