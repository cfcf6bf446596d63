/-
# Building a value, and taking it apart

A constructor or a closure takes the words of its fields into a new block.  The block has one owner,
the word that is made, and it owns what its fields own, so the ownership of all blocks stays exact
(`build_spec`).  A value of one owner gives its fields back (`tbFields_exact`): what was built and
taken apart leaves the words and the other blocks as they were (`construct_fields`).
-/
import TeamyBend.Runtime.NativeCalls
import TeamyBend.Runtime.NativeOwnership

namespace TeamyBend.Runtime.Values

open BlockHeap (Heap Block Beside tbMeta tbMetaOwned nclsAll clsFit clsFit_spec)
open BlockHeap.Heap.Holds (Refused)
open Library (Counted Finishes)
open Tasks (Machine Failure tagClo termTag termAux termLoc termRfc)

variable {u : Program} {role : Nat → Role} {m : Machine} {nodes roots : Multiset Nat}
  {held : Multiset Block} {b : Block} {loc cls tag aux cid : Nat} {values : List Nat}
  {E : Failure → Machine → Prop}

/-! ## 1. Writing the fields -/

/-- A row of cells of a block was written. -/
structure Written (b : Block) (loc : Nat) (values : List Nat) (h h' : Heap) : Prop where
  beside : Beside b h h'
  metadata : h'.metadata = h.metadata
  before : ∀ l < loc, h'.cells l = h.cells l
  reads : words h'.cells (fun _ => true) loc values.length = values

theorem writeAll_spec (hh : m.heap.Holds held) (hb : b ∈ held) (hlo : b.start ≤ loc)
    (hhi : loc + values.length ≤ b.start + b.size) :
    Finishes (writeAll loc values) m (fun _ m' => ∃ heap, m' = { m with heap } ∧
      heap.Holds held ∧ Written b loc values m.heap heap) E := by
  induction values generalizing m loc with
  | nil =>
    exact .pure ⟨m.heap, rfl, hh, ⟨rfl, fun _ _ => rfl, fun _ _ => rfl⟩, rfl, fun _ _ => rfl, rfl⟩
  | cons value values ih =>
    rw [List.length_cons] at hhi
    have hloc : b.Has loc := ⟨hlo, by omega⟩
    have hstore : Beside b m.heap
        { m.heap with cells := Function.update m.heap.cells loc value } :=
      BlockHeap.Heap.Holds.beside_store hloc
    refine write_bind hh hb hloc ?_
    refine (ih (hh.store hb hloc).2 (by omega) (by omega)).imp ?_
    rintro _ _ ⟨heap, rfl, hholds, hwritten⟩
    refine ⟨heap, rfl, hholds, ⟨hwritten.beside.memory.trans hstore.memory, fun l hl => ?_,
      fun l hl => ?_⟩, hwritten.metadata, fun l hl => ?_, ?_⟩
    · exact (hwritten.beside.cells l hl).trans (hstore.cells l hl)
    · exact (hwritten.beside.metadata l hl).trans (hstore.metadata l hl)
    · exact (hwritten.before l (by omega)).trans (Function.update_of_ne (by omega) _ _)
    · rw [List.length_cons, words, if_pos rfl, hwritten.reads,
        hwritten.before loc (Nat.lt_succ_self loc)]
      exact congrArg (· :: values) (Function.update_self ..)

/-! ## 2. A new block -/

/-- An allocation is refused for want of room only. -/
theorem alloc_spec (hh : m.heap.Holds held) (hcls : cls < nclsAll)
    (he : ∀ message, Refused m.heap cls (u.backs m.heap.bump) message → E (.fail message) m) :
    Finishes (alloc u cls) m (fun loc m' =>
      (∀ message, ¬Refused m.heap cls (u.backs m.heap.bump) message) ∧
      ∃ heap, m' = { m with heap } ∧ heap.Holds (⟨loc, cls⟩ ::ₘ held) ∧
        Beside ⟨loc, cls⟩ m.heap heap ∧
        ∀ l, (⟨loc, cls⟩ : Block).Has l → heap.owned l = true ∧ heap.sealed l = false) E := by
  refine .get_bind (.get_bind ?_)
  dsimp only
  have hrefused (message : String) :
      (BlockHeap.heapAlloc ⟨m.heap.memory⟩ cls (u.backs m.heap.bump) m.heap).1 = .error message ↔
        Refused m.heap cls (u.backs m.heap.bump) message := hh.alloc_error_iff hcls
  cases hcall : BlockHeap.heapAlloc ⟨m.heap.memory⟩ cls (u.backs m.heap.bump) m.heap with
  | mk r heap =>
    rw [hcall] at hrefused
    cases r with
    | error message => exact .throw (he message ((hrefused message).1 rfl))
    | ok loc =>
      obtain ⟨hholds, hbeside, hfresh⟩ := hh.alloc hcall
      refine .modify_bind (.pure ⟨fun message hr => ?_, heap, rfl, hholds, hbeside, fun l hl => ?_⟩)
      · cases (hrefused message).2 hr
      · exact hholds.new_marks (Multiset.mem_cons_self ..) (hfresh l hl).2

/-- Why there is no block with some fields: none of its class is to be had, or the number of its
constructor or function is too large for a word. -/
inductive Unbuilt (u : Program) (h : Heap) (cls aux : Nat) : String → Prop
  | refused {message : String} (hrefused : Refused h cls (u.backs h.bump) message) :
    Unbuilt u h cls aux message
  | wide (hwide : 65535 < aux) : Unbuilt u h cls aux "native term fields overflow"

/-- The parts of a word that was made. -/
theorem termMake_ok {term : Nat} (h : termMake tag aux loc = .ok term) :
    aux ≤ 65535 ∧ termTag term = tag ∧ termAux term = aux ∧ termLoc term = loc ∧
      termRfc term = false := by
  unfold termMake at h
  split at h
  · cases h
  · next hfits =>
    simp only [not_or, BlockHeap.locMask] at hfits
    cases h
    rw [termTag, termAux, termLoc, termRfc, decide_eq_false_iff_not]
    omega

/-- A word of a tag and a location there are is refused for its number only. -/
theorem termMake_error {message : String} (htag : tag ≤ 127) (hloc : loc ≤ BlockHeap.locMask)
    (h : termMake tag aux loc = .error message) :
    message = "native term fields overflow" ∧ 65535 < aux := by
  unfold termMake at h
  split at h
  · next hlarge =>
    cases h
    exact ⟨rfl, by omega⟩
  · cases h

/-- What is built: a value with these fields, and one owner. -/
structure Built (u : Program) (role : Nat → Role) (h : Heap) (nodes roots : Multiset Nat)
    (tag aux : Nat) (values : List Nat) (term : Nat) (role' : Nat → Role) (h' : Heap) : Prop where
  holds : h'.Holds (blocks u role' (termLoc term ::ₘ nodes))
  owned : Owned u role' h' (termLoc term ::ₘ nodes) (term ::ₘ roots)
  payload : role' (termLoc term) = .payload tag aux
  content : fields u role' h' (termLoc term) = values
  reads : words h'.cells (fun _ => true) (termLoc term) values.length = values
  marks : ∀ i < fieldCount u (.payload tag aux), h'.owned (termLoc term + i) = true
  word : termTag term = tag ∧ termAux term = aux ∧ termRfc term = false
  others : ∀ x ∈ nodes, role' x = role x
  same : SameAt u role (· ∈ nodes) h h'

/-- A block that is new, with its fields, is a value. -/
theorem built_of_new {h h' : Heap} {term : Nat}
    (hheld : h'.Holds (⟨termLoc term, cls⟩ ::ₘ blocks u role nodes))
    (hbeside : Beside ⟨termLoc term, cls⟩ h h')
    (hmarks : ∀ l, (⟨termLoc term, cls⟩ : Block).Has l → h'.owned l = true)
    (hwords : words h'.cells (fun _ => true) (termLoc term) values.length = values)
    (ho : Owned u role h nodes (↑values + roots))
    (hshape : dropShape u tag aux = .ok (cls, values.length)) (harray : tag ≠ tagArr)
    (hterm : termTag term = tag ∧ termAux term = aux ∧ termRfc term = false) :
    Built u role h nodes roots tag aux values term
      (Function.update role (termLoc term) (.payload tag aux)) h' := by
  obtain ⟨htag, haux, hrfc⟩ := hterm
  have hshaped := dropShape_spec hshape
  have hnew : termLoc term ∉ nodes := fun hmem =>
    hheld.apart (mem_blocks hmem) (Block.has_start _) (Block.has_start ⟨termLoc term, cls⟩)
  -- The other blocks keep their roles and their cells.
  have hothers : ∀ x ∈ nodes,
      Function.update role (termLoc term) (.payload tag aux) x = role x := fun x hx =>
    Function.update_of_ne (ne_of_mem_of_not_mem hx hnew) _ _
  have hrole : Function.update role (termLoc term) (.payload tag aux) (termLoc term) =
      .payload tag aux := Function.update_self ..
  have hblocks : blocks u (Function.update role (termLoc term) (.payload tag aux)) nodes =
      blocks u role nodes :=
    Multiset.map_congr rfl fun x hx => by rw [blockOf, blockOf, hothers x hx]
  have hsame : SameAt u role (· ∈ nodes) h h' :=
    .beside hbeside fun x hx l hl => hheld.apart (mem_blocks hx) hl
  have hcount : fieldCount u (.payload tag aux) = values.length := by
    rw [fieldCount, if_neg harray, hshape]
  have hhas (i : Nat) (hi : i < values.length) :
      (⟨termLoc term, cls⟩ : Block).Has (termLoc term + i) :=
    ⟨Nat.le_add_right .., Nat.add_lt_add_left (Nat.lt_of_lt_of_le hi hshaped.fits) _⟩
  have hfields : fields u (Function.update role (termLoc term) (.payload tag aux)) h'
      (termLoc term) = values := by
    rw [fields, hrole, hcount, words_congr fun l hlo hhi => ⟨rfl, ?_⟩, hwords]
    have hl := hhas (l - termLoc term) (by omega)
    rw [Nat.add_sub_cancel' hlo] at hl
    exact hmarks l hl
  have hfieldMarks : ∀ i < fieldCount u (.payload tag aux), h'.owned (termLoc term + i) = true :=
    fun i hi => hmarks _ (hhas i (by rwa [hcount] at hi))
  refine ⟨?_, ?_, hrole, hfields, hwords, hfieldMarks, ⟨htag, haux, hrfc⟩, hothers, hsame⟩
  · rw [blocks_cons, hblocks, blockOf_payload hrole hshape]
    exact hheld
  · have hmoved := (ho.same hsame fun x hx hsealed => ?_).rerole hothers
    · rw [← hfields] at hmoved
      refine hmoved.make hnew ?_ (by rw [hrole, htag, haux]) ?_ hrfc
      · rw [Filled, hrole]
        exact ⟨⟨_, hshape⟩, fun _ => hfieldMarks⟩
      · -- Its location is not zero, and its tag is none of a trivial word.
        have hpos : termLoc term ≠ 0 := (hheld.start_pos (Multiset.mem_cons_self ..)).ne'
        have hlow : ¬termTag term ≤ tagPak := by
          have := hshaped.tagged
          rw [tagPak]
          omega
        have hhole : term ≠ Tasks.termHole := by
          rintro rfl
          cases hrfc
        simp [termTriv, hlow, hhole, hpos]
    · have hstart : (blockOf u role x).Has x := Block.has_start _
      rw [hbeside.sealed (hheld.apart (mem_blocks hx) hstart)]
      exact hsealed

/-- **A new block takes over what its fields own.** -/
theorem build_spec (hh : m.heap.Holds (blocks u role nodes))
    (ho : Owned u role m.heap nodes (↑values + roots))
    (hshape : dropShape u tag aux = .ok (cls, values.length)) (harray : tag ≠ tagArr)
    (hfit : values.length ≤ 2 ^ cls) (hcls : cls < nclsAll) :
    Finishes (do
        let loc ← alloc u cls
        writeAll loc values
        Tasks.check (termMake tag aux loc)) m
      (fun term m' => (∀ message, ¬Unbuilt u m.heap cls aux message) ∧
        ∃ heap role', m' = { m with heap } ∧
          Built u role m.heap nodes roots tag aux values term role' heap)
      fun err _ => ∃ message, err = .fail message ∧ Unbuilt u m.heap cls aux message := by
  refine (alloc_spec hh hcls fun message hrefused => ⟨message, rfl, .refused hrefused⟩).bind ?_
  rintro loc _ ⟨hroomy, heap, rfl, hheld, hnew, hmarks⟩
  have hroom : loc + values.length ≤ loc + 2 ^ cls := Nat.add_le_add_left hfit loc
  refine (writeAll_spec hheld (Multiset.mem_cons_self ..) (Nat.le_refl loc) hroom).bind ?_
  rintro _ _ ⟨heap', rfl, hholds, hwritten⟩
  cases hmake : termMake tag aux loc with
  | error message =>
    have htag : tag ≤ 127 := (dropShape_spec hshape).tagged.2.trans (by decide)
    have hloc : loc ≤ BlockHeap.locMask := hholds.start_le (Multiset.mem_cons_self ..)
    obtain ⟨rfl, hwide⟩ := termMake_error htag hloc hmake
    exact .throw ⟨_, rfl, .wide hwide⟩
  | ok term =>
    obtain ⟨hnarrow, htag, haux, rfl, hrfc⟩ := termMake_ok hmake
    refine .pure ⟨fun message hun => ?_, heap', _, rfl, built_of_new hholds
      (hnew.trans hwritten.beside) (fun l hl => ?_) hwritten.reads ho hshape harray
      ⟨htag, haux, hrfc⟩⟩
    · cases hun with
      | refused hrefused => exact hroomy message hrefused
      | wide hwide => exact absurd hwide (Nat.not_lt.2 hnarrow)
    · rw [Heap.owned, hwritten.metadata]
      exact (hmarks l hl).1

/-! ## 3. Constructors and closures -/

/-- Why no constructor is built. -/
inductive Unconstructed (u : Program) (h : Heap) (cid count : Nat) : String → Prop
  | arity (harity : u.arities[cid]?.map UInt8.toNat ≠ some count) :
    Unconstructed u h cid count "constructor arity mismatch"
  | unbuilt {message : String} (hun : Unbuilt u h (clsFit (UInt32.ofNat count)) cid message) :
    Unconstructed u h cid count message

/-- **A constructor owns its fields**, and it is built unless there is a reason against it. -/
theorem tbConstruct_exact (hh : m.heap.Holds (blocks u role nodes))
    (ho : Owned u role m.heap nodes (↑values + roots)) :
    Finishes (tbConstruct u cid values false) m
      (fun term m' => (∀ message, ¬Unconstructed u m.heap cid values.length message) ∧
        ∃ heap role', m' = { m with heap } ∧
          Built u role m.heap nodes roots tagCtr cid values term role' heap)
      fun err _ => ∃ message, err = .fail message ∧
        Unconstructed u m.heap cid values.length message := by
  unfold tbConstruct
  split
  · next hnone =>
    refine .throw ⟨_, rfl, .arity ?_⟩
    simp [hnone]
  · next arity harity =>
    refine .ite (fun hlength => .throw ⟨_, rfl, .arity ?_⟩) fun hlength => ?_
    · rw [harity]
      exact fun heq => hlength (Option.some.inj heq).symm
    refine .ite (fun hpacked => absurd hpacked Bool.false_ne_true) fun _ => ?_
    have hlength : values.length = arity.toNat := not_not.1 hlength
    have hsmall : values.length ≤ 2 ^ 8 := by
      have := arity.toNat_lt
      omega
    obtain ⟨hfit, hcls⟩ := clsFit_spec hsmall (by decide)
    have hshape : dropShape u tagCtr cid =
        .ok (clsFit (UInt32.ofNat values.length), values.length) := by
      rw [dropShape, if_neg (by decide), if_pos rfl, cidArity, harity, hlength]
      rfl
    refine (build_spec hh ho hshape (by decide) hfit (by rw [nclsAll]; omega)).mono ?_ ?_
    · rintro term _ ⟨hbuildable, hbuilt⟩
      refine ⟨fun message hun => ?_, hbuilt⟩
      cases hun with
      | arity hne => exact hne (by rw [harity, hlength]; rfl)
      | unbuilt hun => exact hbuildable message hun
    · rintro _ _ ⟨message, rfl, hun⟩
      exact ⟨message, rfl, .unbuilt hun⟩

/-- A closure without captures is trivial. -/
theorem termTriv_of_empty {term : Nat} (htag : termTag term = tagClo) (hloc : termLoc term = 0)
    (hrfc : termRfc term = false) : termTriv term = true := by
  simp [termTriv, htag, hloc, hrfc]

/-- Why no closure is built. -/
inductive Unclosed (u : Program) (h : Heap) (fid count : Nat) : String → Prop
  | unregistered (hfid : fid < 2 ∨ 65536 ≤ fid ∨ u.captures fid ≠ some count) :
    Unclosed u h fid count "unregistered closure"
  | unbuilt {message : String} (hun : Unbuilt u h (clsFit (UInt32.ofNat count)) fid message) :
    Unclosed u h fid count message

/-- **A closure owns its captures**, and one without captures is a number. -/
theorem tbClosure_exact {fid : Nat} (hh : m.heap.Holds (blocks u role nodes))
    (ho : Owned u role m.heap nodes (↑values + roots)) :
    Finishes (tbClosure u fid values) m
      (fun term m' => (termTriv term = true ∧ values = [] ∧ m' = m) ∨
        ∃ heap role', m' = { m with heap } ∧
          Built u role m.heap nodes roots tagClo fid values term role' heap)
      fun err _ => ∃ message, err = .fail message ∧
        Unclosed u m.heap fid values.length message := by
  refine .ite (fun hfid => .throw ⟨_, rfl, .unregistered hfid⟩) fun hregistered => ?_
  simp only [not_or, not_not, Nat.not_lt, Nat.not_le] at hregistered
  obtain ⟨hfid, -, hcaptures⟩ := hregistered
  refine .ite (fun hnone => ?_) fun hsome => ?_
  · cases hmake : termMake tagClo fid 0 with
    | error message =>
      obtain ⟨rfl, hwide⟩ := termMake_error (by decide) (Nat.zero_le _) hmake
      exact .throw ⟨_, rfl, .unbuilt (.wide hwide)⟩
    | ok term =>
      obtain ⟨-, htag, -, hloc, hrfc⟩ := termMake_ok hmake
      exact .pure (.inl ⟨termTriv_of_empty htag hloc hrfc, hnone, rfl⟩)
  · have hcount : closureCaptures u fid = values.length := by
      rw [closureCaptures, hcaptures, Option.getD_some]
    have hle : values.length ≤ 2 ^ 8 := (u.captures_le fid _ hcaptures).trans (by decide)
    obtain ⟨hfit, hcls⟩ := clsFit_spec hle (by decide)
    have hshape : dropShape u tagClo fid =
        .ok (clsFit (UInt32.ofNat values.length), values.length) := by
      rw [dropShape, if_neg (by decide), if_neg (by decide), if_pos rfl, hcount, if_neg]
      rw [List.length_eq_zero_iff]
      exact not_or.2 ⟨Nat.not_lt.2 hfid, hsome⟩
    refine (build_spec hh ho hshape (by decide) hfit (by rw [nclsAll]; omega)).mono
      (fun _ _ h => .inr h.2) ?_
    rintro _ _ ⟨message, rfl, hun⟩
    exact ⟨message, rfl, .unbuilt hun⟩

/-! ## 4. Sharing a value -/

/-- A block is sealed, and what is owned stays so. -/
theorem setSealed_exact (hh : m.heap.Holds (blocks u role nodes))
    (ho : Owned u role m.heap nodes roots) (hmem : loc ∈ nodes) :
    Finishes (setSealed loc true) m (fun _ m' => ∃ heap, m' = { m with heap } ∧
      heap.Holds (blocks u role nodes) ∧ Owned u role heap nodes roots ∧
      heap.sealed loc = true) E := by
  have hblock : blockOf u role loc ∈ blocks u role nodes := mem_blocks hmem
  obtain ⟨heap, hcall, hheld, -⟩ := hh.setSealed hblock true
  obtain ⟨hcells, hmarks, hsealed, hmore⟩ := hh.seals hblock hcall
  refine .get_bind ?_
  rw [blockOf] at hcall
  dsimp only
  rw [hcall]
  refine .modify_bind (.pure ⟨heap, rfl, hheld, ?_, hsealed⟩)
  exact ho.same ⟨fun _ _ _ _ => by rw [hcells], fun _ _ _ _ => by rw [hmarks]⟩ fun x _ => hmore x

/-- **The owners of a value are counted.**  A cell of its own takes over the value, and so many
words own the cell. -/
theorem rfcWrapSealed_exact {term count : Nat} (hh : m.heap.Holds (blocks u role nodes))
    (ho : Owned u role m.heap nodes (term ::ₘ roots)) (hcountable : countable (termTag term))
    (hrfc : termRfc term = false) (hcount : 0 < count ∧ count < rfcCnt)
    (hsealed : m.heap.sealed (termLoc term) = true) :
    Finishes (rfcWrapSealed u term count) m
      (fun word m' => ∃ heap cell, m' = { m with heap } ∧ word = withCell term cell ∧
        cell ∉ nodes ∧ SameAt u role (· ∈ nodes) m.heap heap ∧
        heap.Holds (blocks u (Function.update role cell (.counter (termLoc term)))
          (cell ::ₘ nodes)) ∧
        Owned u (Function.update role cell (.counter (termLoc term))) heap (cell ::ₘ nodes)
          (Multiset.replicate count word + roots))
      fun err _ => ∃ message, err = .fail message ∧
        Refused m.heap 0 (u.backs m.heap.bump) message := by
  have hmem := ho.mem_root (Multiset.mem_cons_self ..) (not_triv_of_countable hcountable)
  have hblock : blockOf u role (termLoc term) ∈ blocks u role nodes := mem_blocks hmem
  have hstart : (blockOf u role (termLoc term)).Has (termLoc term) := Block.has_start _
  refine .ite (fun hne => absurd hcountable (hne.resolve_left (by simp [hrfc]))) fun _ => ?_
  refine .ite (fun hne => by omega) fun _ => ?_
  refine span_bind hh hblock hstart hstart.2 (cellSealed_bind hh hblock ?_)
  refine .ite (fun hopen => absurd hopen (by simp [blockOf, hsealed])) fun _ => ?_
  refine (alloc_spec hh (by decide) fun message hrefused => ⟨message, rfl, hrefused⟩).bind ?_
  rintro cell _ ⟨-, heap, rfl, hheld, hbeside, hmarks⟩
  have hcellBlock : (⟨cell, 0⟩ : Block) ∈ ⟨cell, 0⟩ ::ₘ blocks u role nodes :=
    Multiset.mem_cons_self ..
  have hhas : (⟨cell, 0⟩ : Block).Has cell := Block.has_start _
  have hlt : cell < 2 ^ 40 := Nat.lt_succ_of_le (hheld.start_le hcellBlock)
  have hnew : cell ∉ nodes := fun hnode =>
    hheld.apart (mem_blocks hnode) (Block.has_start _) hhas
  -- The cell is written and marked; the other blocks are as they were.
  refine write_bind hheld hcellBlock hhas ?_
  refine markRaw_bind (hheld.store hcellBlock hhas).2 hcellBlock hhas hhas.2 (hmarks cell hhas).2 ?_
  intro heap' hheld' hbeside' hcells
  have hstore : Beside ⟨cell, 0⟩ heap
      { heap with cells := Function.update heap.cells cell (termLoc term * 2 ^ 24 + count) } :=
    BlockHeap.Heap.Holds.beside_store hhas
  have hapart := (hbeside.trans hstore).trans hbeside'
  have hsame : SameAt u role (· ∈ nodes) m.heap heap' :=
    .beside hapart fun x hx l hl => hheld.apart (mem_blocks hx) hl
  have hothers : ∀ x ∈ nodes,
      Function.update role cell (.counter (termLoc term)) x = role x := fun x hx =>
    Function.update_of_ne (ne_of_mem_of_not_mem hx hnew) _ _
  have hrole : Function.update role cell (.counter (termLoc term)) cell =
      .counter (termLoc term) := Function.update_self ..
  have hblocks : blocks u (Function.update role cell (.counter (termLoc term))) nodes =
      blocks u role nodes :=
    Multiset.map_congr rfl fun x hx => by rw [blockOf, blockOf, hothers x hx]
  have hword : heap'.cells cell = termLoc term * 2 ^ 24 + count := by
    rw [hcells]
    exact Function.update_self ..
  have hseals (x : Nat) (hx : x ∈ nodes) : heap'.sealed x = m.heap.sealed x :=
    hapart.sealed (hheld.apart (mem_blocks hx) (Block.has_start _))
  have howned := (ho.same hsame fun x hx hseal => by rwa [hseals x hx]).rerole hothers
  have hsmall : count < 2 ^ 24 := hcount.2.trans (by decide)
  refine .pure ⟨heap', cell, rfl, rfl, hnew, hsame, ?_, ?_⟩
  · rw [blocks_cons, hblocks, blockOf_counter hrole]
    exact hheld'
  · refine howned.share hcountable hrfc hnew hlt hrole ?_ ?_ hcount ?_
    · rw [hword]
      omega
    · rw [hword]
      omega
    · rw [hseals _ hmem, hsealed]

/-! ## 5. Taking a value apart -/

theorem readAll_spec {count : Nat} (hh : m.heap.Holds held) (hb : b ∈ held) (hlo : b.start ≤ loc)
    (hhi : loc + count ≤ b.start + b.size) :
    Finishes (readAll loc count) m
      (fun values m' => values = words m.heap.cells (fun _ => true) loc count ∧ m' = m) E := by
  induction count generalizing loc with
  | zero => exact .pure ⟨rfl, rfl⟩
  | succ count ih =>
    refine read_bind hh hb ⟨hlo, by omega⟩ ?_
    refine (ih (by omega) (by omega)).bind ?_
    rintro values _ ⟨rfl, rfl⟩
    exact .pure ⟨rfl, rfl⟩

/-- Where the fields of a value are. -/
def Leads (role : Nat → Role) (term payload : Nat) : Prop :=
  role payload = .payload (termTag term) (termAux term) ∧
    if termRfc term then role (termLoc term) = .counter payload else termLoc term = payload

theorem Owned.leads {h : Heap} {term : Nat} (ho : Owned u role h nodes (term ::ₘ roots))
    (htriv : termTriv term = false) :
    ∃ payload ∈ nodes, Leads role term payload := by
  have hmem := ho.mem_root (Multiset.mem_cons_self ..) htriv
  have hagree := ho.agree term (Multiset.mem_cons_self ..) htriv
  rw [Agrees] at hagree
  split at hagree
  · next hrfc =>
    obtain ⟨payload, hcounter, hpayload⟩ := hagree
    exact ⟨payload, ho.mem_payload hmem hcounter, hpayload, by rwa [if_pos hrfc]⟩
  · next hrfc => exact ⟨_, hmem, hagree, by rw [if_neg hrfc]⟩

theorem termPeek_spec {term payload : Nat} (hh : m.heap.Holds (blocks u role nodes))
    (ho : Owned u role m.heap nodes (term ::ₘ roots)) (htriv : termTriv term = false)
    (hpayload : payload ∈ nodes) (hleads : Leads role term payload) :
    Finishes (termPeek term) m (fun loc m' => loc = payload ∧ m' = m) E := by
  have hmem := ho.mem_root (Multiset.mem_cons_self ..) htriv
  have hstart : (blockOf u role payload).Has payload := Block.has_start _
  obtain ⟨-, hwhere⟩ := hleads
  refine .ite (fun hrfc => ?_) fun hrfc => ?_
  · rw [if_pos hrfc] at hwhere
    have hheld : m.heap.Holds (blocks u role nodes + 0) := by rwa [add_zero]
    obtain ⟨hview, hcell, -, -⟩ := ho.rfcView hheld hmem hwhere
    refine onCheck_bind hview ?_
    rw [hcell]
    exact span_bind hh (mem_blocks hpayload) hstart hstart.2 (.pure ⟨rfl, rfl⟩)
  · rw [if_neg hrfc] at hwhere
    rw [hwhere]
    exact span_bind hh (mem_blocks hpayload) hstart hstart.2 (.pure ⟨rfl, rfl⟩)

/-- The fields at a location are owned instead of the value. -/
structure Taken (u : Program) (role : Nat → Role) (h : Heap) (nodes roots : Multiset Nat)
    (payload : Nat) (h' : Heap) (nodes' : Multiset Nat) : Prop where
  mem : payload ∈ nodes
  sub : ∀ x ∈ nodes', x ∈ nodes ∧ x ≠ payload
  same : SameAt u role (· ∈ nodes') h h'
  owned : Owned u role h' nodes' (fields u role h payload + roots)

theorem Taken.untouched {h h' h'' : Heap} {nodes' : Multiset Nat} {payload : Nat}
    (ht : Taken u role h nodes roots payload h' nodes')
    (hu : Untouched (blocks u role nodes') h' h'') :
    Taken u role h nodes roots payload h'' nodes' :=
  ⟨ht.mem, ht.sub, ht.same.trans hu.same, ht.owned.untouched hu⟩

/-- The only owner of a value gives it up for what its fields own. -/
theorem claimed_spec {term payload : Nat} (hh : m.heap.Holds (blocks u role nodes))
    (ho : Owned u role m.heap nodes (term ::ₘ roots)) (htag : termTag term = tagCtr)
    (hpayload : payload ∈ nodes) (hleads : Leads role term payload)
    (hsole : need role m.heap (termLoc term) = 1) :
    Finishes (ctrTake.claimed term) m (fun unique m' => unique = true ∧ ∃ heap nodes',
      m' = { m with heap } ∧ heap.Holds (blockOf u role payload ::ₘ blocks u role nodes') ∧
      Taken u role m.heap nodes roots payload heap nodes' ∧
      ∀ l, (blockOf u role payload).Has l → heap.cells l = m.heap.cells l) E := by
  have htriv : termTriv term = false := not_triv_of_countable (.inl htag)
  have hmem := ho.mem_root (Multiset.mem_cons_self ..) htriv
  obtain ⟨hrole, hwhere⟩ := hleads
  refine .ite (fun hrfc => ?_) fun hrfc => ?_
  · -- The counter is given back, and the value has the word of its block.
    rw [if_pos hrfc] at hwhere
    obtain ⟨rest, rfl⟩ := Multiset.exists_cons_of_mem hmem
    have hcount : m.heap.cells (termLoc term) % 2 ^ 24 = 1 := by
      rw [need, hwhere] at hsole
      exact hsole
    have hheld : m.heap.Holds (blocks u role (termLoc term ::ₘ rest) + 0) := by rwa [add_zero]
    obtain ⟨hview, hcell, -, -⟩ := ho.rfcView hheld hmem hwhere
    have hlt : payload < 2 ^ 40 := Nat.lt_succ_of_le (hh.start_le (mem_blocks hpayload))
    have hloc : termLoc (withLoc term payload) = payload := termLoc_withLoc hlt
    have hclaimed := ho.claim htriv hrfc hcount (by rwa [hcell])
    rw [hcell] at hclaimed
    have hrest : payload ∈ rest := by
      rcases Multiset.mem_cons.1 hpayload with rfl | hrest
      · rw [hwhere] at hrole
        cases hrole
      · exact hrest
    obtain ⟨nodes', rfl⟩ := Multiset.exists_cons_of_mem hrest
    rw [blocks_cons, blockOf_counter hwhere] at hh
    refine onCheck_bind hview (.ite (fun _ => ?_) fun hne => absurd hcount hne)
    refine free_bind hh fun heap hleft hbeside => ?_
    have hu := Untouched.beside hh hbeside
    refine .pure ⟨rfl, heap, nodes', rfl, ?_, ⟨hpayload, ?_, ?_, ?_⟩, ?_⟩
    · rwa [blocks_cons] at hleft
    · exact fun x hx => ⟨Multiset.mem_cons_of_mem (Multiset.mem_cons_of_mem hx), fun heq =>
        (Multiset.nodup_cons.1 hclaimed.counted.nodup).1 (heq ▸ hx)⟩
    · exact ⟨fun x hx => hu.same.cells x (Multiset.mem_cons_of_mem hx),
        fun x hx => hu.same.owned x (Multiset.mem_cons_of_mem hx)⟩
    · have hfields := fields_same hu.same (Multiset.mem_cons_self ..)
        (hclaimed.filled payload (Multiset.mem_cons_self ..))
      have hmoved : Owned u role heap (termLoc (withLoc term payload) ::ₘ nodes')
          (withLoc term payload ::ₘ roots) := by
        rw [hloc]
        exact hclaimed.untouched hu
      have htaken := hmoved.take (not_triv_of_countable (by
        rw [termTag_withLoc hlt]
        exact .inl htag)) (termRfc_withLoc hlt)
      rwa [hloc, hfields] at htaken
    · exact fun l hl => hbeside.cells l (hh.apart (mem_blocks hrest) hl)
  · rw [if_neg hrfc] at hwhere
    subst hwhere
    obtain ⟨nodes', rfl⟩ := Multiset.exists_cons_of_mem hmem
    rw [blocks_cons] at hh
    refine .pure ⟨rfl, m.heap, nodes', rfl, hh, ⟨hmem, ?_, ?_, ?_⟩, fun _ _ => rfl⟩
    · exact fun x hx => ⟨Multiset.mem_cons_of_mem hx, fun heq =>
        (Multiset.nodup_cons.1 ho.counted.nodup).1 (heq ▸ hx)⟩
    · exact ⟨fun _ _ _ _ => rfl, fun _ _ _ _ => rfl⟩
    · exact ho.take htriv (Bool.eq_false_iff.2 hrfc)

/-- A value of one owner is taken apart; its block is still held. -/
theorem ctrTake_sole {term count : Nat} (hh : m.heap.Holds (blocks u role nodes))
    (ho : Owned u role m.heap nodes (term ::ₘ roots)) (htag : termTag term = tagCtr)
    (harity : cidArity u (termAux term) = .ok count)
    (hsole : need role m.heap (termLoc term) = 1) :
    Finishes (ctrTake u term count) m (fun r m' => ∃ heap nodes', m' = { m with heap } ∧
      Leads role term r.1 ∧ fieldCount u (role r.1) = count ∧
      heap.Holds (⟨r.1, clsFit (UInt32.ofNat count)⟩ ::ₘ blocks u role nodes') ∧
      Taken u role m.heap nodes roots r.1 heap nodes' ∧
      r.2 = words m.heap.cells (fun _ => true) r.1 count) E := by
  have htriv : termTriv term = false := not_triv_of_countable (.inl htag)
  obtain ⟨payload, hpayload, hleads⟩ := ho.leads htriv
  have hshape : dropShape u (termTag term) (termAux term) =
      .ok (clsFit (UInt32.ofNat count), count) := by
    rw [htag, dropShape, if_neg (by decide), if_pos rfl, harity]
    rfl
  have hfit : payload + count ≤ payload + 2 ^ clsFit (UInt32.ofNat count) :=
    Nat.add_le_add_left (dropShape_spec hshape).fits payload
  have hblock := blockOf_payload hleads.1 hshape
  have hcount : fieldCount u (role payload) = count := by
    rw [hleads.1, fieldCount, if_neg (htag ▸ by decide), hshape]
  refine .ite (fun hpak => absurd (hpak.symm.trans htag) (by decide)) fun _ => ?_
  refine .ite (fun hne => absurd htag hne) fun _ => ?_
  refine check_bind harity (.ite (fun hne => absurd rfl hne) fun _ => ?_)
  refine (termPeek_spec hh ho htriv hpayload hleads).bind ?_
  rintro payload _ ⟨rfl, rfl⟩
  refine allocation_bind hh (hblock ▸ mem_blocks hpayload) ?_
  refine (claimed_spec hh ho htag hpayload hleads hsole).bind ?_
  rintro _ _ ⟨rfl, heap, nodes', rfl, hheld, htaken, hcells⟩
  rw [hblock] at hheld hcells
  refine .ite (fun _ => ?_) fun hunique => absurd rfl hunique
  refine (readAll_spec hheld (Multiset.mem_cons_self ..) (Nat.le_refl payload) hfit).bind ?_
  rintro _ _ ⟨rfl, rfl⟩
  refine setSealed_bind hheld (Multiset.mem_cons_self ..) fun heap' hheld' hbeside =>
    .pure ⟨heap', nodes', rfl, hleads, hcount, hheld', htaken.untouched (.beside hheld hbeside), ?_⟩
  exact words_congr fun l hlo hhi => ⟨hcells l ⟨hlo, Nat.lt_of_lt_of_le hhi hfit⟩, rfl⟩

/-- The value is of a constructor: its number and its arity are those that are expected. -/
theorem representation_ok_iff {term count : Nat} :
    representation u term cid count false = .ok () ↔
      termAux term = cid ∧ cidArity u cid = .ok count ∧ termTag term = tagCtr := by
  unfold representation
  rw [if_neg Bool.false_ne_true]
  constructor
  · intro h
    split at h
    · cases h
    next haux =>
    split at h
    · cases h
    next arity harity =>
    split at h
    · cases h
    next hmatch =>
    obtain ⟨hcount, htag⟩ := not_or.1 hmatch
    exact ⟨not_not.1 haux, by rw [harity, not_not.1 hcount], not_not.1 htag⟩
  · rintro ⟨haux, harity, htag⟩
    rw [if_neg (not_not.2 haux), harity]
    exact if_neg (not_or.2 ⟨not_not.2 rfl, not_not.2 htag⟩)

/-- **A value of one owner gives its fields back**, unless it is of another constructor. -/
theorem tbFields_exact {term count : Nat} (hh : m.heap.Holds (blocks u role nodes))
    (ho : Owned u role m.heap nodes (term ::ₘ roots))
    (hsole : termTriv term = false → need role m.heap (termLoc term) = 1) :
    Finishes (tbFields u term cid count false) m
      (fun values m' => ∃ heap nodes' payload, m' = { m with heap } ∧ Leads role term payload ∧
        fieldCount u (role payload) = count ∧ heap.Holds (blocks u role nodes') ∧
        Taken u role m.heap nodes roots payload heap nodes' ∧
        values = words m.heap.cells (fun _ => true) payload count)
      fun err _ => ∃ message, err = .fail message ∧
        representation u term cid count false = .error message := by
  unfold tbFields
  cases hrep : representation u term cid count false with
  | error message =>
    exact Finishes.bind (Q := fun _ _ => False) (.throw ⟨message, rfl, rfl⟩) fun _ _ => False.elim
  | ok _ =>
    obtain ⟨rfl, harity, htag⟩ := representation_ok_iff.1 hrep
    have hone := hsole (not_triv_of_countable (.inl htag))
    refine check_bind rfl ?_
    refine (ctrTake_sole hh ho htag harity hone).bind ?_
    rintro ⟨payload, values⟩ _ ⟨heap, nodes', rfl, hleads, hcount, hheld, htaken, hvalues⟩
    dsimp only at hleads hcount hheld htaken hvalues ⊢
    subst hvalues
    have hpos : payload ≠ 0 := (hheld.start_pos (Multiset.mem_cons_self ..)).ne'
    rw [spareFree, if_pos hpos]
    refine free_bind hheld fun heap' hleft hbeside => .pure ?_
    exact ⟨heap', nodes', payload, rfl, hleads, hcount, hleft,
      htaken.untouched (.beside hheld hbeside), rfl⟩

/-- What was built is of its constructor. -/
theorem Built.representation {h h' : Heap} {term : Nat} {role' : Nat → Role}
    (hbuilt : Built u role h nodes roots tagCtr cid values term role' h')
    (harity : u.arities[cid]?.map UInt8.toNat = some values.length) :
    Values.representation u term cid values.length false = .ok () := by
  refine representation_ok_iff.2 ⟨hbuilt.word.2.1, ?_, hbuilt.word.1⟩
  obtain ⟨arity, hcid, hcount⟩ := Option.map_eq_some_iff.1 harity
  rw [cidArity, hcid]
  exact congrArg Except.ok hcount

/-- **What is built gives its fields back, and nothing else changes hands.**  Only the building may
fail: for want of room, or because the constructor is not one of so many fields, or its number does
not fit into a word. -/
theorem construct_fields (hh : m.heap.Holds (blocks u role nodes))
    (ho : Owned u role m.heap nodes (↑values + roots)) :
    Finishes (do
        let term ← tbConstruct u cid values false
        tbFields u term cid values.length false) m
      (fun fields m' => (∀ message, ¬Unconstructed u m.heap cid values.length message) ∧
        fields = values ∧ ∃ heap, m' = { m with heap } ∧
          heap.Holds (blocks u role nodes) ∧ Owned u role heap nodes (↑values + roots) ∧
          SameAt u role (· ∈ nodes) m.heap heap)
      fun err _ => ∃ message, err = .fail message ∧
        Unconstructed u m.heap cid values.length message := by
  refine (tbConstruct_exact hh ho).bind ?_
  rintro term _ ⟨hconstructible, heap, role', rfl, hbuilt⟩
  have harity : u.arities[cid]?.map UInt8.toNat = some values.length :=
    not_not.1 fun hne => hconstructible _ (.arity hne)
  have hrep := hbuilt.representation harity
  have hsole : need role' heap (termLoc term) = 1 := by rw [need, hbuilt.payload]
  refine (tbFields_exact hbuilt.holds hbuilt.owned fun _ => hsole).mono ?_ ?_
  · rintro fields _ ⟨heap', nodes', payload, rfl, hleads, -, hholds, htaken, hvalues⟩
    have hloc := hleads.2
    rw [hbuilt.word.2.2, if_neg Bool.false_ne_true] at hloc
    subst hloc
    have hmem : ∀ x ∈ nodes', x ∈ nodes := fun x hx =>
      (Multiset.mem_cons.1 (htaken.sub x hx).1).resolve_left (htaken.sub x hx).2
    have hothers : ∀ x ∈ nodes', role x = role' x := fun x hx =>
      (hbuilt.others x (hmem x hx)).symm
    have hsame : SameAt u role (· ∈ nodes') m.heap heap' := by
      refine ⟨fun x hx l hl => ?_, fun x hx l hl => ?_⟩
      · have hl' := hl
        rw [blockOf, hothers x hx] at hl'
        exact (htaken.same.cells x hx l hl').trans (hbuilt.same.cells x (hmem x hx) l hl)
      · have hl' := hl
        rw [blockOf, hothers x hx] at hl'
        exact (htaken.same.owned x hx l hl').trans (hbuilt.same.owned x (hmem x hx) l hl)
    have howned := htaken.owned.rerole hothers
    rw [hbuilt.content] at howned
    -- The blocks that are left are those that the same roots reach.
    have hcounted : Counted (need role heap') (out u role m.heap) nodes'
        (targets (↑values + roots)) :=
      howned.counted.congr (fun _ _ => rfl) fun x hx =>
        (out_same hsame hx (ho.filled x (hmem x hx))).symm
    obtain rfl : nodes' = nodes :=
      (Multiset.Nodup.ext hcounted.nodup ho.counted.nodup).2 fun x =>
        hcounted.mem_iff.trans ho.counted.mem_iff.symm
    have hblocks : blocks u role nodes' = blocks u role' nodes' :=
      Multiset.map_congr rfl fun x hx => by rw [blockOf, blockOf, hothers x hx]
    rw [← hblocks] at hholds
    exact ⟨hconstructible, hvalues.trans hbuilt.reads, heap', rfl, hholds, howned, hsame⟩
  · rintro _ _ ⟨message, rfl, hmismatch⟩
    rw [hrep] at hmismatch
    cases hmismatch

/-- Programs with one constructor, of one field. -/
def oneField : Program where
  segment _ := none
  captures _ := none
  resumeSlots _ := 0
  device _ := false
  maxTasks := 0
  maxSteps := 8
  maxContinuations := 0
  allocates _ := true
  arities := [1]
  backs _ := true
  captures_le _ _ := nofun
  segment_le _ _ := nofun

/-- A machine that has done nothing. -/
def machineAt (heap : Heap) : Machine where
  heap := heap
  cancelled := false
  steps := 0
  allocations := 0
  table _ := []
  tasks := 0
  taskPeak := 0
  taskJoins := 0
  records := 0
  continuations := 0
  segmentCalls := 0
  queue := []

/-- A constructor of one number, in a heap without a block: the number comes back. -/
theorem construct_fields_number :
    ∃ start m', BlockHeap.startHeap 8 8 64 = .ok start ∧
      (do
        let term ← tbConstruct oneField 0 [7] false
        tbFields oneField term 0 1 false) (machineAt start) = .ok [7] m' ∧ m'.heap.Holds 0 := by
  obtain ⟨start, hstart⟩ : ∃ start, BlockHeap.startHeap 8 8 64 = .ok start := ⟨_, rfl⟩
  have hempty : start.Holds 0 := BlockHeap.Heap.Holds.holds_startHeap (by decide) hstart
  have hnumber : Owned oneField (fun _ => .counter 0) start 0 (↑[7] + 0) :=
    (Owned.empty _ start).add_trivial (by decide)
  obtain ⟨m', hrun⟩ : ∃ m', (do
      let term ← tbConstruct oneField 0 [7] false
      tbFields oneField term 0 1 false) (machineAt start) = .ok [7] m' := by
    cases hstart
    exact ⟨_, rfl⟩
  obtain ⟨-, -, heap, rfl, hholds, -⟩ := (construct_fields hempty hnumber).result hrun
  exact ⟨start, _, hstart, hrun, hholds⟩

end TeamyBend.Runtime.Values
