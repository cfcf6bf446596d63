/-
# Dropping a value

`term_drop` gives back what a word owns, without a stack of its own: the way back goes through the
first cells of the blocks that it takes apart, and their positions stand in the word of the way and,
for an array, in its second cell.

A block on the way (`Frame`) is held, but no value is left in it: its fields that are still to come
count as roots.  Each round keeps the ownership exact (`Dropping`), so at the end the blocks that
are left are those that the other roots reach (`termDrop_exact`).
-/
import TeamyBend.Runtime.NativeConstruct

namespace TeamyBend.Runtime.Values

open BlockHeap (Heap Block Beside)
open Library (Counted Finishes Reaches exists_of_yields)
open Tasks (Machine M Failure tagClo tagTsk termTag termAux termLoc termRfc)

/-! ## 1. What is left alone -/

section Survive

variable {u : Program} {role : Nat → Role} {h h' h'' : Heap} {nodes nodes' nodes'' : Multiset Nat}

/-- The blocks that are left have their values as before. -/
structure Survive (u : Program) (role : Nat → Role) (h : Heap) (nodes : Multiset Nat) (h' : Heap)
    (nodes' : Multiset Nat) : Prop where
  sub : nodes' ≤ nodes
  cells : ∀ x ∈ nodes', ∀ tag aux, role x = .payload tag aux → ∀ l, (blockOf u role x).Has l →
    h'.cells l = h.cells l
  metadata : ∀ x ∈ nodes', ∀ l, (blockOf u role x).Has l → h'.metadata l = h.metadata l

theorem Survive.refl (h : Heap) (nodes : Multiset Nat) : Survive u role h nodes h nodes :=
  ⟨le_refl _, fun _ _ _ _ _ _ _ => rfl, fun _ _ _ _ => rfl⟩

theorem Survive.trans (hs : Survive u role h nodes h' nodes')
    (hs' : Survive u role h' nodes' h'' nodes'') : Survive u role h nodes h'' nodes'' where
  sub := hs'.sub.trans hs.sub
  cells x hx tag aux hrole l hl := (hs'.cells x hx tag aux hrole l hl).trans
    (hs.cells x (Multiset.mem_of_le hs'.sub hx) tag aux hrole l hl)
  metadata x hx l hl := (hs'.metadata x hx l hl).trans
    (hs.metadata x (Multiset.mem_of_le hs'.sub hx) l hl)

end Survive

/-! ## 2. The way back -/

/-- A block that is being taken apart. -/
structure Frame where
  loc : Nat
  cls : Nat
  count : Nat
  array : Bool
  position : Nat

namespace Frame

def block (f : Frame) : Block := ⟨f.loc, f.cls⟩

/-- The index in the word of the way: of an array it stops at two. -/
def index (f : Frame) : Nat := if f.array then min f.position 2 else f.position

/-- The word of the way at this block. -/
def word (f : Frame) : Nat :=
  f.loc + f.index * 2 ^ 40 + (if f.array then 0 else f.count) * 2 ^ 48 +
    (f.cls + if f.array then 64 else 0) * 2 ^ 56

structure Valid (f : Frame) : Prop where
  loc_pos : 0 < f.loc
  loc_lt : f.loc < 2 ^ 40
  cls_lt : f.cls < 32
  position : f.position ≤ f.count
  fits : f.count ≤ 2 ^ f.cls
  array : f.array = true → f.count = 2 ^ f.cls ∧ f.cls ≤ 17
  plain : f.array = false → f.count ≤ 255

/-- The words that are still to be dropped. -/
def left (cells : Nat → Nat) (owned : Nat → Bool) (f : Frame) : List Nat :=
  words cells owned (f.loc + f.position) (f.count - f.position)

def next (f : Frame) : Frame := { f with position := f.position + 1 }

end Frame

/-- The way back from a block to the value that was dropped. -/
def Chain (cells : Nat → Nat) : Nat → List Frame → Prop
  | current, [] => current = 0
  | current, f :: rest =>
    current = f.word ∧ (f.array = true → 2 ≤ f.position → cells (f.loc + 1) = f.position) ∧
      Chain cells (cells f.loc) rest

/-- The words that the blocks on the way still own; the first word of the last one stands apart. -/
def pending (h : Heap) (first : Nat) : List Frame → Multiset Nat
  | [] => 0
  | f :: rest => ↑(f.left (Function.update h.cells f.loc first) h.owned ++
      rest.flatMap (Frame.left h.cells h.owned))

/-- The blocks that are held while a value is dropped. -/
def underWay (u : Program) (role : Nat → Role) (nodes : Multiset Nat) (stack : List Frame) :
    Multiset Block :=
  blocks u role nodes + ↑(stack.map Frame.block)

/-- **The state of a drop.** -/
structure Dropping (u : Program) (role : Nat → Role) (h : Heap) (first current : Nat)
    (nodes roots : Multiset Nat) (stack : List Frame) : Prop where
  holds : h.Holds (underWay u role nodes stack)
  chain : Chain h.cells current stack
  valid : ∀ f ∈ stack, f.Valid
  inner : ∀ f ∈ stack.tail, 0 < f.position
  owned : Owned u role h nodes (pending h first stack + roots)

section Frames

variable {cells cells' : Nat → Nat} {owned owned' : Nat → Bool} {f : Frame} {stack : List Frame}
  {current loc count cls : Nat}

theorem Frame.has_loc (f : Frame) : f.block.Has f.loc := f.block.has_start

theorem Frame.Valid.has (hf : f.Valid) {i : Nat} (hi : i < f.count) : f.block.Has (f.loc + i) :=
  ⟨Nat.le_add_right .., Nat.add_lt_add_left (Nat.lt_of_lt_of_le hi hf.fits) _⟩

theorem Frame.left_congr (hf : f.Valid)
    (h : ∀ l, f.block.Has l → f.loc + f.position ≤ l → cells' l = cells l ∧ owned' l = owned l) :
    f.left cells' owned' = f.left cells owned := by
  have hposition := hf.position
  refine words_congr fun l hlo hhi => h l ⟨?_, ?_⟩ hlo
  · exact Nat.le_of_add_right_le hlo
  · have := hf.fits
    simp only [Frame.block, Block.size]
    omega

/-- A drop that has some positions behind it. -/
theorem Frame.left_first (hf : f.Valid) (hposition : 0 < f.position) (value : Nat) :
    f.left (Function.update cells f.loc value) owned = f.left cells owned :=
  f.left_congr hf fun l _ hl => ⟨Function.update_of_ne (by omega) _ _, rfl⟩

/-- The chain depends on the cells of its blocks only. -/
theorem Chain.congr (hvalid : ∀ f ∈ stack, f.Valid)
    (h : ∀ f ∈ stack, ∀ l, f.block.Has l → cells' l = cells l)
    (hchain : Chain cells current stack) :
    Chain cells' current stack := by
  induction stack generalizing current with
  | nil => exact hchain
  | cons f rest ih =>
    obtain ⟨hword, hposition, hrest⟩ := hchain
    have hf := hvalid f List.mem_cons_self
    have hsame := h f List.mem_cons_self
    refine ⟨hword, fun harray hlarge => ?_, ?_⟩
    · rw [hsame _ (hf.has (Nat.lt_of_lt_of_le hlarge hf.position))]
      exact hposition harray hlarge
    · rw [hsame _ f.has_loc]
      exact ih (fun g hg => hvalid g (List.mem_cons_of_mem _ hg))
        (fun g hg => h g (List.mem_cons_of_mem _ hg)) hrest

theorem frameWord_eq (hloc : loc < 2 ^ 40) (hcount : count < 2 ^ 8) (hcls : cls < 2 ^ 7) :
    frameWord loc count cls = loc + count * 2 ^ 48 + cls * 2 ^ 56 := by
  have hlow : loc ||| count <<< 48 = loc + count * 2 ^ 48 := by
    rw [Nat.lor_comm, ← Nat.shiftLeft_add_eq_or_of_lt (by omega), Nat.shiftLeft_eq, Nat.add_comm]
  rw [frameWord, hlow, Nat.lor_comm, ← Nat.shiftLeft_add_eq_or_of_lt (by omega), Nat.shiftLeft_eq]
  omega

theorem or_array (hcls : cls ≤ 17) : cls ||| 64 = cls + 64 := by
  have hshift : (64 : Nat) = 1 <<< 6 := rfl
  rw [Nat.lor_comm, hshift, ← Nat.shiftLeft_add_eq_or_of_lt (by omega), Nat.add_comm]

theorem Frame.word_pos (hf : f.Valid) : f.word ≠ 0 := by
  have := hf.loc_pos
  rw [Frame.word]
  omega

/-- What is read off the word of the way. -/
theorem Frame.word_spec (hf : f.Valid) :
    f.word % 2 ^ 40 = f.loc ∧ f.word / 2 ^ 40 % 2 ^ 8 = f.index ∧
      f.word / 2 ^ 48 % 2 ^ 8 = (if f.array then 0 else f.count) ∧
      f.word / 2 ^ 56 = f.cls + (if f.array then 64 else 0) := by
  have hloc := hf.loc_lt
  have hcls := hf.cls_lt
  have hposition := hf.position
  have hplain := hf.plain
  rw [Frame.word, Frame.index]
  cases harray : f.array with
  | true =>
    simp only [if_true]
    omega
  | false =>
    have := hplain harray
    simp only [Bool.false_eq_true, if_false]
    omega

end Frames

/-! ## 3. One value -/

section Enter

variable {u : Program} {role : Nat → Role} {m : Machine} {nodes roots : Multiset Nat}
  {rest : Multiset Block} {term first current : Nat} {stack : List Frame}
  {E : Failure → Machine → Prop}

/-- A call that drops something leaves the other blocks alone, and those that are being taken
apart. -/
structure Leaves (u : Program) (role : Nat → Role) (h : Heap) (nodes : Multiset Nat)
    (rest : Multiset Block) (h' : Heap) (nodes' : Multiset Nat) : Prop where
  survive : Survive u role h nodes h' nodes'
  untouched : Untouched rest h h'

/-- The last owner of a shared value. -/
theorem dropShared_last (hh : m.heap.Holds (blocks u role (termLoc term ::ₘ nodes) + rest))
    (ho : Owned u role m.heap (termLoc term ::ₘ nodes) (term ::ₘ roots))
    (htriv : termTriv term = false) (hrfc : termRfc term = true)
    (hlast : m.heap.cells (termLoc term) % 2 ^ 24 = 1) :
    Finishes (dropShared term) m (fun term' m' => ∃ heap, m' = { m with heap } ∧
      heap.Holds (blocks u role nodes + rest) ∧ Owned u role heap nodes (term' ::ₘ roots) ∧
      Leaves u role m.heap (termLoc term ::ₘ nodes) rest heap nodes ∧
      termRfc term' = false) E := by
  have hloc : termLoc term ∈ termLoc term ::ₘ nodes := Multiset.mem_cons_self ..
  have hagree := ho.agree term (Multiset.mem_cons_self _ _) htriv
  rw [Agrees, if_pos hrfc] at hagree
  obtain ⟨payload, hrole, -⟩ := hagree
  obtain ⟨hview, hcell, -, hpayload⟩ := ho.rfcView hh hloc hrole
  have hlt : payload < 2 ^ 40 := Nat.lt_of_le_pred (by decide) (hh.start_le (mem_held hpayload))
  have hpos : payload ≠ 0 := (hh.start_pos (mem_held hpayload)).ne'
  have hclaim := ho.claim htriv hrfc hlast (hcell ▸ hlt)
  rw [hcell] at hclaim
  rw [blocks_cons, blockOf_counter hrole, Multiset.cons_add] at hh
  rw [dropShared, htriv, hrfc]
  refine .ite (fun _ => ?_) fun hneg => absurd rfl hneg
  have hrelease : Finishes (rfcRelease (termLoc term)) m (fun loc m' => loc = payload ∧
      ∃ heap, m' = { m with heap } ∧ heap.Holds (blocks u role nodes + rest) ∧
        Beside ⟨termLoc term, 0⟩ m.heap heap) E := by
    refine onCheck_bind hview ?_
    rw [if_pos hlast]
    exact free_bind hh fun heap hheap hbeside => .pure ⟨hcell, heap, rfl, hheap, hbeside⟩
  refine hrelease.bind ?_
  rintro loc m' ⟨rfl, heap, rfl, hheap, hbeside⟩
  have huntouched := Untouched.beside hh hbeside
  have hleft : Untouched (blocks u role nodes) m.heap heap :=
    huntouched.mono fun b hb => Multiset.mem_add.2 (.inl hb)
  refine .pure ⟨heap, rfl, hheap, ?_, ⟨⟨Multiset.le_cons_self .., ?_, ?_⟩, ?_⟩, ?_⟩
  · rw [if_neg hpos]
    exact hclaim.untouched hleft
  · exact fun x hx _ _ _ => hleft.cells _ (mem_blocks hx)
  · exact fun x hx => hleft.metadata _ (mem_blocks hx)
  · exact huntouched.mono fun b hb => Multiset.mem_add.2 (.inr hb)
  · rw [if_neg hpos]
    exact termRfc_withLoc hlt

/-- One of several owners of a shared value. -/
theorem dropShared_shared (hh : m.heap.Holds (blocks u role nodes + rest))
    (ho : Owned u role m.heap nodes (term ::ₘ roots))
    (htriv : termTriv term = false) (hrfc : termRfc term = true)
    (hmore : m.heap.cells (termLoc term) % 2 ^ 24 ≠ 1) :
    Finishes (dropShared term) m (fun term' m' => ∃ heap, m' = { m with heap } ∧
      heap.Holds (blocks u role nodes + rest) ∧ Owned u role heap nodes (term' ::ₘ roots) ∧
      Leaves u role m.heap nodes rest heap nodes ∧ termRfc term' = false) E := by
  have hloc := ho.mem_root (Multiset.mem_cons_self ..) htriv
  have hagree := ho.agree term (Multiset.mem_cons_self _ _) htriv
  rw [Agrees, if_pos hrfc] at hagree
  obtain ⟨payload, hrole, -⟩ := hagree
  obtain ⟨hview, hcell, hpositive, hpayload⟩ := ho.rfcView hh hloc hrole
  have hblock : (⟨termLoc term, 0⟩ : Block) ∈ blocks u role nodes + rest :=
    blockOf_counter hrole ▸ mem_held hloc
  have hhas : (⟨termLoc term, 0⟩ : Block).Has (termLoc term) := Block.has_start _
  rw [dropShared, htriv, hrfc]
  refine .ite (fun _ => ?_) fun hneg => absurd rfl hneg
  let heap := { m.heap with
    cells := Function.update m.heap.cells (termLoc term) (m.heap.cells (termLoc term) - 1) }
  have hrelease : Finishes (rfcRelease (termLoc term)) m
      (fun loc m' => loc = 0 ∧ m' = { m with heap := heap }) E := by
    refine onCheck_bind hview ?_
    rw [if_neg hmore]
    exact write_bind hh hblock hhas (.pure ⟨rfl, rfl⟩)
  refine hrelease.bind ?_
  rintro loc m' ⟨rfl, rfl⟩
  have hheap : heap.Holds (blocks u role nodes + rest) := (hh.store hblock hhas).2
  have hself : heap.cells (termLoc term) = m.heap.cells (termLoc term) - 1 :=
    Function.update_self ..
  have hother : ∀ b ∈ blocks u role nodes + rest, b ≠ ⟨termLoc term, 0⟩ → ∀ l, b.Has l →
      heap.cells l = m.heap.cells l := fun b hb hne l hl => by
    refine Function.update_of_ne (fun heq => hne ?_) _ _
    exact hh.unique hb hblock hl (heq ▸ hhas)
  have hne : ∀ x, x ≠ termLoc term → blockOf u role x ≠ ⟨termLoc term, 0⟩ :=
    fun x hx heq => hx (congrArg Block.start heq)
  have hsame : SameAt u role (fun x => x ∈ nodes ∧ x ≠ termLoc term) m.heap heap :=
    ⟨fun x hx => hother _ (mem_held hx.1) (hne x hx.2), fun _ _ _ _ => rfl⟩
  have hneed : need role m.heap (termLoc term) = need role heap (termLoc term) + 1 := by
    rw [need, need, hrole]
    dsimp only
    rw [hself]
    omega
  have hcounted := ho.counted
  rw [targets_cons htriv] at hcounted
  have hreleased := hcounted.release hneed
    (by rw [need, hrole]; dsimp only; rw [hself]; omega)
    fun x hx hne => need_same hsame ⟨hx, hne⟩
  have hfilled := ho.filled _ hloc
  rw [Filled, hrole] at hfilled
  have howned : Owned u role heap nodes roots := by
    refine ho.recount (by rw [hrole, hself]; congr 1; omega) ?_ hsame (fun _ _ => id) hreleased
      fun t ht => ho.agree t (Multiset.mem_cons_of_mem ht)
    rw [hself]
    omega
  rw [if_pos rfl]
  refine .pure ⟨heap, rfl, hheap, howned.add_trivial rfl, ⟨⟨le_refl _, fun x hx tag aux hpay => ?_,
    fun _ _ _ _ => rfl⟩, ⟨fun b hb => ?_, fun _ _ _ _ => rfl⟩⟩, rfl⟩
  · refine hother _ (mem_held hx) (hne x ?_)
    rintro rfl
    rw [hrole] at hpay
    cases hpay
  · refine hother b (Multiset.mem_add.2 (.inr hb)) ?_
    rintro rfl
    exact Multiset.disjoint_left.1 (Multiset.nodup_add.1 hh.nodup).2.2
      (blockOf_counter hrole ▸ mem_blocks hloc) hb

theorem Leaves.refl (h : Heap) (nodes : Multiset Nat) (rest : Multiset Block) :
    Leaves u role h nodes rest h nodes :=
  ⟨.refl h nodes, .refl rest h⟩

/-- A shared block loses one reference. -/
theorem dropShared_spec (hh : m.heap.Holds (blocks u role nodes + rest))
    (ho : Owned u role m.heap nodes (term ::ₘ roots)) :
    Finishes (dropShared term) m (fun term' m' => ∃ heap nodes', m' = { m with heap } ∧
      heap.Holds (blocks u role nodes' + rest) ∧ Owned u role heap nodes' (term' ::ₘ roots) ∧
      Leaves u role m.heap nodes rest heap nodes' ∧
      (termTriv term' = true ∨ termRfc term' = false)) E := by
  cases htriv : termTriv term with
  | true =>
    rw [dropShared, htriv]
    exact .pure ⟨m.heap, nodes, rfl, hh, ho, .refl .., .inl htriv⟩
  | false =>
    cases hrfc : termRfc term with
    | false =>
      rw [dropShared, htriv, hrfc]
      exact .pure ⟨m.heap, nodes, rfl, hh, ho, .refl .., .inr hrfc⟩
    | true =>
      by_cases hlast : m.heap.cells (termLoc term) % 2 ^ 24 = 1
      · obtain ⟨nodes, rfl⟩ := Multiset.exists_cons_of_mem (ho.mem_root (by simp) htriv)
        refine (dropShared_last hh ho htriv hrfc hlast).imp ?_
        rintro term' _ ⟨heap, rfl, hheap, howned, hleaves, hunique⟩
        exact ⟨heap, nodes, rfl, hheap, howned, hleaves, .inr hunique⟩
      · refine (dropShared_shared hh ho htriv hrfc hlast).imp ?_
        rintro term' _ ⟨heap, rfl, hheap, howned, hleaves, hunique⟩
        exact ⟨heap, nodes, rfl, hheap, howned, hleaves, .inr hunique⟩

/-- What a drop has done so far. -/
def Dropped (u : Program) (role : Nat → Role) (m : Machine) (nodes roots : Multiset Nat)
    (way : Nat × Nat) (m' : Machine) : Prop :=
  ∃ heap nodes' stack', m' = { m with heap } ∧
    Dropping u role heap way.1 way.2 nodes' roots stack' ∧
    Survive u role m.heap nodes heap nodes'

theorem left_untouched (hvalid : ∀ f ∈ stack, f.Valid) {h h' : Heap}
    (hu : Untouched ↑(stack.map Frame.block) h h') :
    stack.flatMap (Frame.left h'.cells h'.owned) = stack.flatMap (Frame.left h.cells h.owned) := by
  refine List.flatMap_congr fun f hf => f.left_congr (hvalid f hf) fun l hl _ => ?_
  have hmem : f.block ∈ (↑(stack.map Frame.block) : Multiset Block) := List.mem_map_of_mem hf
  exact ⟨hu.cells _ hmem l hl, hu.owned hmem hl⟩

theorem Chain.untouched (hvalid : ∀ f ∈ stack, f.Valid) {h h' : Heap}
    (hu : Untouched ↑(stack.map Frame.block) h h') (hchain : Chain h.cells current stack) :
    Chain h'.cells current stack :=
  hchain.congr hvalid fun _ hf => hu.cells _ (List.mem_map_of_mem (f := Frame.block) hf)

theorem pending_inner (h : Heap) (hvalid : ∀ f ∈ stack, f.Valid)
    (hinner : ∀ f ∈ stack, 0 < f.position) :
    pending h first stack = ↑(stack.flatMap (Frame.left h.cells h.owned)) := by
  cases stack with
  | nil => rfl
  | cons f rest =>
    rw [pending, f.left_first (hvalid f List.mem_cons_self) (hinner f List.mem_cons_self)]
    rfl

/-- The frame of a value that is taken apart. -/
def enterFrame (u : Program) (tag aux loc cls : Nat) : Frame :=
  ⟨loc, cls, fieldCount u (.payload tag aux), tag = tagArr, 0⟩

/-- The frame that is entered is valid, and the word stored is its own. -/
theorem enterFrame_spec {tag aux loc cls count : Nat}
    (hshape : dropShape u tag aux = .ok (cls, count)) (hpos : 0 < loc) (hlt : loc < 2 ^ 40) :
    (enterFrame u tag aux loc cls).Valid ∧
      frameWord loc count (if tag = tagArr then cls ||| 64 else cls) =
        (enterFrame u tag aux loc cls).word := by
  have hshaped := dropShape_spec hshape
  have hcls := hshaped.cls_lt
  have hcount := hshaped.count_le
  by_cases harray : tag = tagArr
  · obtain ⟨rfl, hle, rfl⟩ := hshaped.array harray
    have hfields : fieldCount u (.payload tag cls) = 2 ^ cls := if_pos harray
    have hflag : decide (tag = tagArr) = true := decide_eq_true harray
    refine ⟨⟨hpos, hlt, hcls, Nat.zero_le _, hfields.le, fun _ => ⟨hfields, hle⟩, fun h => ?_⟩, ?_⟩
    · exact Bool.noConfusion (hflag.symm.trans h)
    · rw [if_pos harray, or_array hle, frameWord_eq hlt (by decide) (by omega), Frame.word,
        Frame.index]
      simp [enterFrame, harray]
  · have hfields : fieldCount u (.payload tag aux) = count := by
      rw [fieldCount, if_neg harray, hshape]
    have hflag : decide (tag = tagArr) = false := decide_eq_false harray
    refine ⟨⟨hpos, hlt, hcls, Nat.zero_le _, hfields.le.trans hshaped.fits, fun h => ?_,
      fun _ => hfields.le.trans hcount⟩, ?_⟩
    · exact Bool.noConfusion (hflag.symm.trans h)
    · rw [if_neg harray, frameWord_eq hlt (by omega) (by omega), Frame.word, Frame.index]
      simp [enterFrame, harray, hfields]

/-- To enter a block puts its frame on the chain, with its cells left to delete; what needs no walk
is released at once. -/
theorem dropEnter_spec (hh : m.heap.Holds (underWay u role nodes stack))
    (hchain : Chain m.heap.cells current stack) (hvalid : ∀ f ∈ stack, f.Valid)
    (hinner : ∀ f ∈ stack, 0 < f.position)
    (ho : Owned u role m.heap nodes
      (term ::ₘ (↑(stack.flatMap (Frame.left m.heap.cells m.heap.owned)) + roots))) :
    Finishes (dropEnter u term first current) m (Dropped u role m nodes roots) E := by
  refine (dropShared_spec hh ho).bind ?_
  rintro term _ ⟨heap, nodes₁, rfl, hheap, ho₁, ⟨hsurvive, huntouched⟩, hunique⟩
  have hchain₁ := hchain.untouched hvalid huntouched
  rw [← left_untouched hvalid huntouched] at ho₁
  refine .ite (fun htriv => ?_) fun htriv => ?_
  · refine .pure ⟨heap, nodes₁, stack, rfl, ⟨hheap, hchain₁, hvalid, ?_, ?_⟩, hsurvive⟩
    · exact fun f hf => hinner f (List.mem_of_mem_tail hf)
    · rw [pending_inner heap hvalid hinner]
      exact ho₁.drop_trivial htriv
  have hfalse : termTriv term = false := Bool.eq_false_of_not_eq_true htriv
  have hrfc := hunique.resolve_left htriv
  have hloc := ho₁.mem_root (Multiset.mem_cons_self ..) hfalse
  have hrole := ho₁.agree term (Multiset.mem_cons_self ..) hfalse
  rw [Agrees, hrfc, if_neg Bool.false_ne_true] at hrole
  have hfilled := ho₁.filled _ hloc
  rw [Filled, hrole] at hfilled
  obtain ⟨⟨⟨cls, count⟩, hshape⟩, -⟩ := hfilled
  have hblock := blockOf_payload hrole hshape
  have hpos := hheap.start_pos (mem_held hloc)
  have hlt : termLoc term < 2 ^ 40 := Nat.mod_lt _ (by decide)
  obtain ⟨nodes₂, rfl⟩ := Multiset.exists_cons_of_mem hloc
  have htake := ho₁.take hfalse hrfc
  rw [blocks_cons, hblock, Multiset.cons_add] at hheap
  have hsub : nodes₂ ≤ nodes := (Multiset.le_cons_self ..).trans hsurvive.sub
  have hmem : (⟨termLoc term, cls⟩ : Block) ∈
      ⟨termLoc term, cls⟩ ::ₘ underWay u role nodes₂ stack :=
    Multiset.mem_cons_self ..
  have hhas : (⟨termLoc term, cls⟩ : Block).Has (termLoc term) := Block.has_start _
  refine check_bind hshape (allocation_bind hheap hmem ?_)
  refine .ite (fun hbuf => ?_) fun hbuf => ?_
  · -- The cells of a buffer own nothing.
    have hempty : fields u role heap (termLoc term) = 0 := by
      rw [fields, hrole, fieldCount, if_neg (by rw [hbuf]; decide), hshape,
        (dropShape_spec hshape).buffer hbuf]
      rfl
    rw [hempty, Multiset.zero_add] at htake
    refine free_bind hheap fun heap' hheap' hbeside => ?_
    have huntouched' := Untouched.beside hheap hbeside
    have hstack : Untouched ↑(stack.map Frame.block) heap heap' :=
      huntouched'.mono fun b hb => Multiset.mem_add.2 (.inr hb)
    have hnodes : Untouched (blocks u role nodes₂) heap heap' :=
      huntouched'.mono fun b hb => Multiset.mem_add.2 (.inl hb)
    refine .pure ⟨heap', nodes₂, stack, rfl, ⟨hheap', hchain₁.untouched hvalid hstack, hvalid, ?_,
      ?_⟩, hsurvive.trans ⟨Multiset.le_cons_self .., ?_, ?_⟩⟩
    · exact fun f hf => hinner f (List.mem_of_mem_tail hf)
    · rw [pending_inner heap' hvalid hinner, left_untouched hvalid hstack]
      exact htake.untouched hnodes
    · exact fun x hx _ _ _ => hnodes.cells _ (mem_blocks hx)
    · exact fun x hx => hnodes.metadata _ (mem_blocks hx)
  · obtain ⟨hframe, hword⟩ := enterFrame_spec hshape hpos hlt
    refine read_bind hheap hmem hhas (write_bind hheap hmem hhas ?_)
    set f := enterFrame u (termTag term) (termAux term) (termLoc term) cls
    let heap' := { heap with cells := Function.update heap.cells (termLoc term) current }
    have hbeside : Beside ⟨termLoc term, cls⟩ heap heap' := Heap.Holds.beside_store hhas
    have huntouched' := Untouched.beside hheap hbeside
    have hstack : Untouched ↑(stack.map Frame.block) heap heap' :=
      huntouched'.mono fun b hb => Multiset.mem_add.2 (.inr hb)
    have hnodes : Untouched (blocks u role nodes₂) heap heap' :=
      huntouched'.mono fun b hb => Multiset.mem_add.2 (.inl hb)
    have hself : heap'.cells (termLoc term) = current := Function.update_self ..
    refine .pure ⟨heap', nodes₂, f :: stack, rfl, ⟨?_, ⟨hword, ?_, ?_⟩, ?_, hinner, ?_⟩,
      hsurvive.trans ⟨Multiset.le_cons_self .., ?_, ?_⟩⟩
    · rw [underWay, List.map_cons, ← Multiset.cons_coe, Multiset.add_cons]
      exact (hheap.store hmem hhas).2
    · exact fun _ hzero => absurd hzero (Nat.not_succ_le_zero 1)
    · show Chain heap'.cells (heap'.cells (termLoc term)) stack
      rw [hself]
      exact hchain₁.untouched hvalid hstack
    · exact List.forall_mem_cons.2 ⟨hframe, hvalid⟩
    · -- With its first word in its place again, the block has the fields that it had.
      have hfields : f.left (Function.update heap'.cells f.loc (heap.cells (termLoc term)))
          heap'.owned = words heap.cells heap.owned (termLoc term)
            (fieldCount u (role (termLoc term))) := by
        show words (Function.update (Function.update heap.cells (termLoc term) current)
          (termLoc term) (heap.cells (termLoc term))) heap.owned _ _ = _
        rw [Function.update_idem, Function.update_eq_self, hrole]
        rfl
      have hpending : pending heap' (heap.cells (termLoc term)) (f :: stack) + roots =
          fields u role heap (termLoc term) +
            (↑(stack.flatMap (Frame.left heap.cells heap.owned)) + roots) := by
        rw [pending, hfields, left_untouched hvalid hstack, ← Multiset.coe_add, Multiset.add_assoc]
        rfl
      show Owned u role heap' nodes₂ (pending heap' _ _ + roots)
      rw [hpending]
      exact htake.untouched hnodes
    · exact fun x hx _ _ _ => hnodes.cells _ (mem_blocks hx)
    · exact fun x hx => hnodes.metadata _ (mem_blocks hx)

end Enter

/-! ## 4. One round -/

section Round

variable {u : Program} {role : Nat → Role} {m : Machine} {nodes roots : Multiset Nat}
  {held : Multiset Block} {first current : Nat} {f : Frame} {stack : List Frame} {h h' : Heap}
  {β : Type} {R : β → Machine → Prop} {E : Failure → Machine → Prop}

/-- How a round reads the word of the way. -/
theorem Frame.decode (hf : f.Valid) :
    decide (64 ≤ f.word / 2 ^ 56) = f.array ∧ f.word / 2 ^ 56 % 2 ^ 6 = f.cls ∧
      (if f.array then 2 ^ f.cls % 2 ^ 32 else f.word / 2 ^ 48 % 2 ^ 8) = f.count := by
  obtain ⟨-, -, hcount, htop⟩ := f.word_spec hf
  have hcls := hf.cls_lt
  cases harray : f.array with
  | true =>
    obtain ⟨hfull, hle⟩ := hf.array harray
    have hsmall : 2 ^ f.cls ≤ 2 ^ 17 := Nat.pow_le_pow_right (by decide) hle
    rw [harray, if_pos rfl] at htop
    rw [htop, if_pos rfl, hfull, decide_eq_true_iff]
    exact ⟨by omega, by omega, Nat.mod_eq_of_lt (by omega)⟩
  | false =>
    rw [harray, if_neg Bool.false_ne_true] at htop hcount
    rw [htop, if_neg Bool.false_ne_true, hcount, decide_eq_false_iff_not]
    exact ⟨by omega, by omega, rfl⟩

theorem Frame.next_word (hf : f.Valid) (hlt : f.position < f.count) :
    (if !f.array || f.index < 2 then (f.word + 2 ^ 40) % 2 ^ 64 else f.word) = f.next.word := by
  have hloc := hf.loc_lt
  have hcls := hf.cls_lt
  have hplain := hf.plain
  rcases Bool.eq_false_or_eq_true f.array with harray | harray
  · simp only [Frame.word, Frame.index, Frame.next, harray, Bool.not_true, Bool.false_or,
      decide_eq_true_eq, if_true]
    split <;> omega
  · have := hplain harray
    simp only [Frame.word, Frame.index, Frame.next, harray, Bool.not_false, Bool.true_or,
      Bool.false_eq_true, if_true, if_false]
    omega

theorem Frame.next_valid (hf : f.Valid) (hlt : f.position < f.count) : f.next.Valid :=
  ⟨hf.loc_pos, hf.loc_lt, hf.cls_lt, hlt, hf.fits, hf.array, hf.plain⟩

/-- The position is read from the frame's word, or from the second cell of a long array. -/
theorem dropPosition_bind {g : Nat → M β} (hf : f.Valid) (hh : m.heap.Holds held)
    (hmem : f.block ∈ held)
    (hcell : f.array = true → 2 ≤ f.position → m.heap.cells (f.loc + 1) = f.position)
    (hg : Finishes (g f.position) m R E) :
    Finishes (dropPosition f.array f.loc f.index >>= g) m R E := by
  have hposition := hf.position
  have hrun : Finishes (dropPosition f.array f.loc f.index) m
      (fun a m' => a = f.position ∧ m' = m) E := by
    cases harray : f.array with
    | true =>
      obtain ⟨hfull, hle⟩ := hf.array harray
      have hsmall : 2 ^ f.cls ≤ 2 ^ 17 := Nat.pow_le_pow_right (by decide) hle
      have hindex : f.index = min f.position 2 := by rw [Frame.index, harray, if_pos rfl]
      refine .ite (fun hlarge => ?_) fun hlarge => ?_
      · have hlarge : 2 ≤ f.position := by
          rw [hindex] at hlarge
          simp only [Bool.true_and, decide_eq_true_eq] at hlarge
          omega
        refine read_bind hh hmem (hf.has (by omega)) (.pure ⟨?_, rfl⟩)
        rw [hcell harray hlarge]
        exact Nat.mod_eq_of_lt (by omega)
      · refine .pure ⟨?_, rfl⟩
        rw [hindex] at hlarge ⊢
        simp only [Bool.true_and, decide_eq_true_eq] at hlarge
        omega
    | false =>
      refine .pure ⟨?_, rfl⟩
      rw [Frame.index, harray, if_neg Bool.false_ne_true]
  refine hrun.bind ?_
  rintro a m' ⟨rfl, rfl⟩
  exact hg

theorem dropChild_bind {g : Nat → M β} (hf : f.Valid) (hlt : f.position < f.count)
    (hh : m.heap.Holds held) (hmem : f.block ∈ held)
    (hg : Finishes (g (Function.update m.heap.cells f.loc first (f.loc + f.position))) m R E) :
    Finishes (dropChild f.position f.loc first >>= g) m R E := by
  rw [dropChild]
  split
  · next hzero =>
    rw [hzero, Nat.add_zero, Function.update_self] at hg
    exact hg
  · next hpos =>
    rw [Function.update_of_ne (by omega)] at hg
    exact read_bind hh hmem (hf.has hlt) hg

/-- The position of an array was moved. -/
structure Moved (f : Frame) (h h' : Heap) : Prop where
  beside : Beside f.block h h'
  owned : h'.owned = h.owned
  cells : ∀ l, f.position = 0 ∨ l ≠ f.loc + 1 → h'.cells l = h.cells l
  position : f.array = true → 0 < f.position → h'.cells (f.loc + 1) = f.position + 1

/-- The link is moved on to the next cell. -/
theorem dropMoved_bind {g : Unit → M β} (hf : f.Valid) (hlt : f.position < f.count)
    (hh : m.heap.Holds held) (hmem : f.block ∈ held)
    (hg : ∀ heap : Heap, heap.Holds held → Moved f m.heap heap →
      Finishes (g ()) { m with heap } R E) :
    Finishes (dropMoved f.array f.position f.loc >>= g) m R E := by
  rw [dropMoved]
  split
  · next hmoved =>
    simp only [Bool.and_eq_true, decide_eq_true_eq] at hmoved
    have hhas : f.block.Has (f.loc + 1) := hf.has (by omega)
    refine write_bind hh hmem hhas (hg _ (hh.store hmem hhas).2
      ⟨Heap.Holds.beside_store hhas, rfl, fun l hl => ?_, fun _ _ => Function.update_self ..⟩)
    exact Function.update_of_ne (hl.resolve_left (by omega)) _ _
  · next hmoved =>
    simp only [Bool.and_eq_true, decide_eq_true_eq] at hmoved
    exact hg m.heap hh ⟨⟨rfl, fun _ _ => rfl, fun _ _ => rfl⟩, rfl, fun _ _ => rfl,
      fun harray hpos => absurd ⟨harray, hpos⟩ hmoved⟩

/-- The next word of a block, and the words after it. -/
theorem Frame.left_next (hlt : f.position < f.count) (hmoved : Moved f h h') :
    f.left (Function.update h.cells f.loc first) h.owned =
      (if h.owned (f.loc + f.position) then
        [Function.update h.cells f.loc first (f.loc + f.position)] else []) ++
      f.next.left h'.cells h'.owned := by
  have hrest : words (Function.update h.cells f.loc first) h.owned (f.loc + f.position + 1)
      (f.count - (f.position + 1)) = f.next.left h'.cells h'.owned := by
    refine (words_congr fun l hlo _ => ⟨?_, congrFun hmoved.owned l⟩).symm
    rw [hmoved.cells l (by omega), Function.update_of_ne (by omega)]
  have hcount : f.count - f.position = f.count - (f.position + 1) + 1 := by omega
  rw [Frame.left, hcount, words, hrest]
  split <;> rfl

theorem mem_underWay (hf : f ∈ stack) : f.block ∈ underWay u role nodes stack :=
  Multiset.mem_add.2 (.inr (List.mem_map_of_mem hf))

theorem underWay_cons :
    underWay u role nodes (f :: stack) = f.block ::ₘ underWay u role nodes stack := by
  rw [underWay, List.map_cons, ← Multiset.cons_coe, Multiset.add_cons]
  rfl

/-- The next word of a block is dropped. -/
theorem dropNext_spec (hd : Dropping u role m.heap first f.word nodes roots (f :: stack))
    (hlt : f.position < f.count) {heap : Heap}
    (hheld : heap.Holds (underWay u role nodes (f :: stack))) (hmoved : Moved f m.heap heap) :
    Finishes
      (if m.heap.owned (f.loc + f.position) &&
          !termTriv (Function.update m.heap.cells f.loc first (f.loc + f.position)) then
        dropEnter u (Function.update m.heap.cells f.loc first (f.loc + f.position)) first
          f.next.word
      else return (first, f.next.word)) { m with heap } (Dropped u role m nodes roots) E := by
  obtain ⟨hh, ⟨-, hcell, hchain⟩, hvalid, hinner, ho⟩ := hd
  obtain ⟨hf, hrest⟩ := List.forall_mem_cons.1 hvalid
  have huntouched : Untouched (underWay u role nodes stack) m.heap heap :=
    Untouched.beside (underWay_cons ▸ hh) hmoved.beside
  have hstack : Untouched ↑(stack.map Frame.block) m.heap heap :=
    huntouched.mono fun b hb => Multiset.mem_add.2 (.inr hb)
  have hnodes : Untouched (blocks u role nodes) m.heap heap :=
    huntouched.mono fun b hb => Multiset.mem_add.2 (.inl hb)
  have hheap : heap.Holds (underWay u role nodes (f.next :: stack)) := by
    rw [underWay_cons] at hheld ⊢
    exact hheld
  have hvalid' : ∀ g ∈ f.next :: stack, g.Valid :=
    List.forall_mem_cons.2 ⟨f.next_valid hf hlt, hrest⟩
  have hinner' : ∀ g ∈ f.next :: stack, 0 < g.position :=
    List.forall_mem_cons.2 ⟨Nat.succ_pos _, hinner⟩
  have hchain' : Chain heap.cells f.next.word (f.next :: stack) := by
    refine ⟨rfl, fun harray hlarge => hmoved.position harray (Nat.lt_of_succ_lt_succ hlarge), ?_⟩
    show Chain heap.cells (heap.cells f.loc) stack
    rw [hmoved.cells f.loc (.inr (by omega))]
    exact hchain.untouched hrest hstack
  have hsurvive : Survive u role m.heap nodes heap nodes :=
    ⟨le_refl _, fun x hx _ _ _ => hnodes.cells _ (mem_blocks hx),
      fun x hx => hnodes.metadata _ (mem_blocks hx)⟩
  have hleft : pending m.heap first (f :: stack) + roots =
      ↑(if m.heap.owned (f.loc + f.position) then
          [Function.update m.heap.cells f.loc first (f.loc + f.position)] else []) +
        (↑((f.next :: stack).flatMap (Frame.left heap.cells heap.owned)) + roots) := by
    rw [pending, f.left_next hlt hmoved, List.flatMap_cons, left_untouched hrest hstack,
      List.append_assoc, ← Multiset.coe_add, Multiset.add_assoc]
  have ho' := ho.untouched hnodes
  rw [hleft] at ho'
  have hdone (ho₁ : Owned u role heap nodes
      (↑((f.next :: stack).flatMap (Frame.left heap.cells heap.owned)) + roots)) :
      Dropped u role m nodes roots (first, f.next.word) { m with heap } := by
    refine ⟨heap, nodes, f.next :: stack, rfl, ⟨hheap, hchain', hvalid', fun g hg =>
      hinner' g (List.mem_of_mem_tail hg), ?_⟩, hsurvive⟩
    rw [pending_inner heap hvalid' hinner']
    exact ho₁
  cases howned : m.heap.owned (f.loc + f.position) with
  | false =>
    rw [howned] at ho'
    exact .pure (hdone (by simpa using ho'))
  | true =>
    rw [howned, if_pos rfl, Multiset.coe_singleton, Multiset.singleton_add] at ho'
    refine .ite (fun _ => ?_) fun htriv => .pure (hdone (ho'.drop_trivial (by simpa using htriv)))
    refine (dropEnter_spec (m := { m with heap }) hheap hchain' hvalid' hinner' ho').imp ?_
    rintro way _ ⟨heap', nodes', stack', rfl, hd', hsurvive'⟩
    exact ⟨heap', nodes', stack', rfl, hd', hsurvive.trans hsurvive'⟩

/-- A block that has no words left is given back. -/
theorem dropLast_spec (hd : Dropping u role m.heap first f.word nodes roots (f :: stack))
    (hend : ¬f.position < f.count) :
    Finishes (do
      let previous ← read f.loc
      free f.cls f.loc
      return (first, previous)) m (Dropped u role m nodes roots) E := by
  obtain ⟨hh, ⟨-, hcell, hchain⟩, hvalid, hinner, ho⟩ := hd
  obtain ⟨hf, hrest⟩ := List.forall_mem_cons.1 hvalid
  refine read_bind hh (mem_underWay List.mem_cons_self) f.has_loc ?_
  rw [underWay_cons] at hh
  refine free_bind hh fun heap hheap hbeside => ?_
  have huntouched := Untouched.beside hh hbeside
  have hstack : Untouched ↑(stack.map Frame.block) m.heap heap :=
    huntouched.mono fun b hb => Multiset.mem_add.2 (.inr hb)
  have hnodes : Untouched (blocks u role nodes) m.heap heap :=
    huntouched.mono fun b hb => Multiset.mem_add.2 (.inl hb)
  refine .pure ⟨heap, nodes, stack, rfl, ⟨hheap, hchain.untouched hrest hstack, hrest,
    fun g hg => hinner g (List.mem_of_mem_tail hg), ?_⟩, ⟨le_refl _, ?_, ?_⟩⟩
  · have hempty : f.left (Function.update m.heap.cells f.loc first) m.heap.owned = [] := by
      rw [Frame.left, show f.count - f.position = 0 by omega]
      rfl
    rw [pending, hempty, List.nil_append] at ho
    rw [pending_inner heap hrest hinner, left_untouched hrest hstack]
    exact ho.untouched hnodes
  · exact fun x hx _ _ _ => hnodes.cells _ (mem_blocks hx)
  · exact fun x hx => hnodes.metadata _ (mem_blocks hx)

/-- **A round keeps the ownership exact.** -/
theorem dropRound_spec (hd : Dropping u role m.heap first current nodes roots (f :: stack)) :
    Finishes (dropRound u first current) m
      (fun way m' => m.steps < u.maxSteps ∧
        Dropped u role { m with steps := m.steps + 1 } nodes roots way m')
      fun err m' => Tired u m' err := by
  have hcurrent : current = f.word := hd.chain.1
  subst hcurrent
  have hf := hd.valid f List.mem_cons_self
  have hmem : f.block ∈ underWay u role nodes (f :: stack) := mem_underWay List.mem_cons_self
  obtain ⟨hloc, hindex, -, -⟩ := f.word_spec hf
  obtain ⟨harray, hcls, hcount⟩ := f.decode hf
  refine tbTick_bind fun hsteps => ?_
  obtain ⟨m₁, hm₁⟩ : ∃ m₁, m₁ = { m with steps := m.steps + 1 } := ⟨_, rfl⟩
  have hheap : m₁.heap = m.heap := by rw [hm₁]
  rw [← hm₁]
  rw [← hheap] at hd
  dsimp only
  rw [hloc, hindex, harray, hcls, hcount]
  refine dropPosition_bind hf hd.holds hmem hd.chain.2.1 (.ite (fun hlt => ?_) fun hend => ?_)
  · refine dropChild_bind hf hlt hd.holds hmem
      (cellOwned_bind hd.holds hmem (hf.has hlt) ?_)
    refine dropMoved_bind hf hlt hd.holds hmem ?_
    intro heap hheap hmoved
    rw [f.next_word hf hlt]
    exact (dropNext_spec hd hlt hheap hmoved).imp
      fun way m' h => ⟨hsteps, h⟩
  · exact (dropLast_spec hd hend).imp
      fun way m' h => ⟨hsteps, h⟩

end Round

/-! ## 5. The drop -/

section Drop

variable {u : Program} {role : Nat → Role} {m : Machine} {nodes roots : Multiset Nat}
  {first current fuel : Nat} {term : Nat} {stack : List Frame}

/-- What a drop leaves. -/
def Gone (u : Program) (role : Nat → Role) (m : Machine) (nodes roots : Multiset Nat)
    (m' : Machine) : Prop :=
  ∃ heap steps nodes', m' = { m with heap, steps } ∧ heap.Holds (blocks u role nodes') ∧
    Owned u role heap nodes' roots ∧ Survive u role m.heap nodes heap nodes'

/-- The walk ends with everything pending deleted, or tired. -/
theorem dropLoop_spec (hd : Dropping u role m.heap first current nodes roots stack)
    (hfuel : 0 < fuel) (hsteps : u.maxSteps < fuel + m.steps) :
    Finishes (dropLoop u fuel first current) m (fun _ m' => Gone u role m nodes roots m')
      fun err m' => Tired u m' err := by
  induction fuel generalizing m first current nodes stack with
  | zero => omega
  | succ fuel ih =>
    rw [dropLoop]
    cases stack with
    | nil =>
      have hcurrent : current = 0 := hd.chain
      rw [if_pos hcurrent]
      have hholds : m.heap.Holds (blocks u role nodes) := by
        simpa [underWay] using hd.holds
      have howned : Owned u role m.heap nodes roots := by
        simpa [pending] using hd.owned
      exact .pure ⟨m.heap, m.steps, nodes, rfl, hholds, howned, .refl ..⟩
    | cons f stack =>
      have hword : current ≠ 0 := by
        rw [hd.chain.1]
        exact f.word_pos (hd.valid f List.mem_cons_self)
      rw [if_neg hword]
      refine (dropRound_spec hd).bind ?_
      rintro ⟨first', current'⟩ _ ⟨hlt, heap, nodes', stack', rfl, hd', hsurvive⟩
      refine (ih hd' (by omega) (by dsimp only; omega)).imp ?_
      rintro _ _ ⟨heap', steps', nodes'', rfl, hholds, howned, hsurvive'⟩
      exact ⟨heap', steps', nodes'', rfl, hholds, howned, hsurvive.trans hsurvive'⟩

/-- Dropping a term deletes what it alone holds, or tires. -/
theorem termDrop_spec (hh : m.heap.Holds (blocks u role nodes))
    (ho : Owned u role m.heap nodes (term ::ₘ roots)) :
    Finishes (termDrop u term) m (fun _ m' => Gone u role m nodes roots m')
      fun err m' => Tired u m' err := by
  have hholds : m.heap.Holds (underWay u role nodes []) := by
    simpa [underWay] using hh
  have howned : Owned u role m.heap nodes
      (term ::ₘ (↑(([] : List Frame).flatMap (Frame.left m.heap.cells m.heap.owned)) + roots)) := by
    simpa using ho
  have henter : Finishes (dropEnter u term 0 0) m (Dropped u role m nodes roots)
      fun err m' => Tired u m' err := dropEnter_spec hholds rfl (by simp) (by simp) howned
  refine henter.bind ?_
  rintro ⟨first, current⟩ _ ⟨heap, nodes', stack, rfl, hd, hsurvive⟩
  refine (dropLoop_spec hd (Nat.succ_pos _) (by omega)).imp ?_
  rintro _ _ ⟨heap', steps', nodes'', rfl, hholds', howned', hsurvive'⟩
  exact ⟨heap', steps', nodes'', rfl, hholds', howned', hsurvive.trans hsurvive'⟩

/-- What the blocks that are left name is what they named. -/
theorem Survive.out {h h' : Heap} {nodes' : Multiset Nat} (hs : Survive u role h nodes h' nodes')
    (ho : Owned u role h nodes roots) {x : Nat} (hx : x ∈ nodes') :
    out u role h' x = out u role h x := by
  cases hrole : role x with
  | counter payload => rw [Values.out, Values.out, hrole]
  | payload tag aux =>
    have hsame : SameAt u role (· = x) h h' := by
      refine ⟨?_, ?_⟩
      · rintro y rfl
        exact hs.cells y hx tag aux hrole
      · rintro y rfl l hl
        rw [Heap.owned, Heap.owned, hs.metadata y hx l hl]
    exact out_same hsame rfl (ho.filled x (Multiset.mem_of_le hs.sub hx))

/-- **A drop is exact**: it frees the blocks that only its value reached, whatever their number and
depth, and leaves the fields of the others as they were; each counter counts the owners that are
left.  It fails only for want of steps. -/
theorem termDrop_exact (hh : m.heap.Holds (blocks u role nodes))
    (ho : Owned u role m.heap nodes (term ::ₘ roots)) :
    Finishes (termDrop u term) m
      (fun _ m' => ∃ heap steps nodes', m' = { m with heap, steps } ∧
        heap.Holds (blocks u role nodes') ∧ Owned u role heap nodes' roots ∧
        (∀ x, x ∈ nodes' ↔
          Reaches (fun a b => b ∈ out u role m.heap a) (· ∈ targets roots) x) ∧
        ∀ x ∈ nodes', ∀ tag aux, role x = .payload tag aux →
          ∀ l, (blockOf u role x).Has l → heap.cells l = m.heap.cells l)
      fun err m' => Tired u m' err := by
  refine (termDrop_spec hh ho).imp ?_
  rintro _ _ ⟨heap, steps, nodes', rfl, hholds, howned, hsurvive⟩
  refine ⟨heap, steps, nodes', rfl, hholds, howned, fun x => ?_, hsurvive.cells⟩
  have hcounted : Counted (need role heap) (out u role m.heap) nodes' (targets roots) :=
    howned.counted.congr (fun _ _ => rfl) fun x hx => (hsurvive.out ho hx).symm
  exact hcounted.mem_iff

end Drop

/-- A value of two owners: one is a word, and the other one is the field of the field of a value. -/
def nestedOwner : M (Nat × Nat) := do
  let inner ← tbConstruct oneField 0 [7] false
  setSealed (termLoc inner) true
  let shared ← rfcWrapSealed oneField inner 2
  let middle ← tbConstruct oneField 0 [shared] false
  let term ← tbConstruct oneField 0 [middle] false
  return (shared, term)

/-- The outer value is dropped; the blocks are counted before and after. -/
def nestedDrop : M (Nat × Nat × Nat) := do
  let (shared, term) ← nestedOwner
  let before ← get
  termDrop oneField term
  let after ← get
  return (shared, before.heap.liveBlocks, after.heap.liveBlocks)

/-- Both words are owned. -/
theorem nestedOwner_spec {m : Machine} (hh : m.heap.Holds 0) :
    Finishes nestedOwner m (fun r m' => ∃ role nodes, m'.heap.Holds (blocks oneField role nodes) ∧
      Owned oneField role m'.heap nodes (r.2 ::ₘ {r.1})) fun _ _ => True := by
  have hnumber : Owned oneField (fun _ => .counter 0) m.heap 0 (↑[7] + 0) :=
    (Owned.empty _ m.heap).add_trivial (by decide)
  refine ((tbConstruct_exact hh hnumber).mono (fun _ _ h => h) fun _ _ _ => trivial).bind ?_
  rintro inner _ ⟨-, heap, role, rfl, hbuilt⟩
  refine (setSealed_exact hbuilt.holds hbuilt.owned (Multiset.mem_cons_self ..)).bind ?_
  rintro _ _ ⟨heap, rfl, hheld, howned, hsealed⟩
  obtain ⟨htag, -, hrfc⟩ := hbuilt.word
  refine ((rfcWrapSealed_exact hheld howned (.inl htag) hrfc (by decide) hsealed).mono
    (fun _ _ h => h) fun _ _ _ => trivial).bind ?_
  rintro shared _ ⟨heap, cell, rfl, -, -, -, hheld, howned⟩
  -- One of the two words goes into the outer values.
  have hfields : Owned _ _ _ _ (↑[shared] + {shared}) := howned
  refine ((tbConstruct_exact hheld hfields).mono (fun _ _ h => h) fun _ _ _ => trivial).bind ?_
  rintro middle _ ⟨-, heap, role, rfl, hbuilt⟩
  have hfields : Owned _ _ _ _ (↑[middle] + {shared}) := hbuilt.owned
  refine ((tbConstruct_exact hbuilt.holds hfields).mono (fun _ _ h => h)
    fun _ _ _ => trivial).bind ?_
  rintro term _ ⟨-, heap, role, rfl, hbuilt⟩
  exact .pure ⟨role, _, hbuilt.holds, hbuilt.owned⟩

/-- The other owner keeps the value: two of the four blocks are given back. -/
theorem termDrop_exact_constructor :
    ∃ start shared m', BlockHeap.startHeap 8 8 64 = .ok start ∧
      nestedDrop (machineAt start) = .ok (shared, 4, 2) m' ∧
      ∃ role nodes, m'.heap.Holds (blocks oneField role nodes) ∧
        Owned oneField role m'.heap nodes {shared} := by
  obtain ⟨start, hstart⟩ : ∃ start, BlockHeap.startHeap 8 8 64 = .ok start := ⟨_, rfl⟩
  let shared : Nat := withCell (tagCtr * 2 ^ 56 + 1) 2
  obtain ⟨m', hdrop⟩ : ∃ m', nestedDrop (machineAt start) = .ok (shared, 4, 2) m' := by
    cases hstart
    exact exists_of_yields (by decide +kernel)
  have hempty : start.Holds 0 := BlockHeap.Heap.Holds.holds_startHeap (by decide) hstart
  have hrun : Finishes nestedDrop (machineAt start) (fun r m' => ∃ role nodes,
      m'.heap.Holds (blocks oneField role nodes) ∧ Owned oneField role m'.heap nodes {r.1})
      fun _ _ => True := by
    refine (nestedOwner_spec hempty).bind ?_
    rintro ⟨shared, term⟩ m ⟨role, nodes, hh, ho⟩
    refine .get_bind (((termDrop_exact hh ho).mono (fun _ _ h => h) fun _ _ _ => trivial).bind ?_)
    rintro _ _ ⟨heap, steps, nodes', rfl, hholds, howned, -⟩
    exact .get_bind (.pure ⟨role, nodes', hholds, howned⟩)
  exact ⟨start, shared, m', hstart, hdrop, hrun.result hdrop⟩

end TeamyBend.Runtime.Values
