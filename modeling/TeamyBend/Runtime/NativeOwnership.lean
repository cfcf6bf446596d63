/-
# Who owns the blocks

A program holds blocks and owns words.  A block is either the fields of one value or the number of
owners of such a block (`Role`).  `Owned` says that each block is named as often as it counts, by
the words that the program owns and by the words that its blocks own: the fields of a value by one
word or one counter, a counter by as many words as it says.

`SameAt` and `Untouched` say what a change elsewhere leaves alone.
-/
import TeamyBend.Library.Counted
import TeamyBend.Runtime.HeapAccess
import TeamyBend.Runtime.NativeValues

namespace TeamyBend.Runtime.Values

open BlockHeap (Heap Block Beside clsFit_spec)
open Library (Counted Reaches)
open Tasks (Setting M Failure fidArity termHole tagClo tagTsk termTag termAux termLoc termRfc)

/-! ## 1. Shapes -/

/-- What is known of a value from its tag and its number. -/
structure Shaped (tag aux cls count : Nat) : Prop where
  cls_lt : cls < 32
  count_le : count ≤ 255
  fits : count ≤ 2 ^ cls
  tagged : 2 ≤ tag ∧ tag ≤ 6
  array : tag = tagArr → cls = aux ∧ aux ≤ 17 ∧ count = 0
  buffer : tag = tagBuf → count = 0

/-- A block that fits its cells has a shape. -/
theorem shaped_fit {tag aux count : Nat} (room : Nat) (hcount : count ≤ 255)
    (htag : 2 ≤ tag ∧ tag ≤ 6) (harray : tag ≠ tagArr) (hbuffer : tag ≠ tagBuf)
    (hroom : room ≤ 2) :
    Shaped tag aux (BlockHeap.clsFit (UInt32.ofNat (count + room))) count := by
  obtain ⟨hle, hcls⟩ := @clsFit_spec (count + room) 9 (by omega) (by decide)
  exact ⟨by omega, hcount, by omega, htag, fun h => absurd h harray, fun h => absurd h hbuffer⟩

variable {u : Program}

/-- A constructor has at most 255 fields. -/
theorem cidArity_le {cid count : Nat} (h : cidArity u cid = .ok count) : count ≤ 255 := by
  unfold cidArity at h
  split at h
  · cases h
  · next arity _ =>
    cases h
    exact Nat.le_of_lt_succ arity.toNat_lt

theorem closureCaptures_le (fid : Nat) : closureCaptures u fid ≤ 255 := by
  rw [closureCaptures]
  cases hcaptures : u.captures fid with
  | none => exact Nat.zero_le _
  | some count => exact u.captures_le fid count hcaptures

/-- And a function as many arguments. -/
theorem fidArity_le {fid count : Nat} (h : fidArity u.toSetting fid = .ok count) :
    count ≤ 255 := by
  unfold fidArity at h
  split at h
  · cases h
    decide
  split at h
  · cases h
    decide
  split at h
  · cases h
  split at h
  · next segment hsegment =>
    cases h
    exact u.segment_le fid segment hsegment
  split at h
  · cases h
  split at h
  · cases h
  · cases h
    omega

/-- **What is dropped has a shape that its block fits.** -/
theorem dropShape_spec {tag aux cls count : Nat} (h : dropShape u tag aux = .ok (cls, count)) :
    Shaped tag aux cls count := by
  unfold dropShape at h
  split at h
  · next harray =>
    split at h
    · cases h
    · next haux =>
      cases h
      refine ⟨?_, by decide, Nat.zero_le _, ?_, fun htag => ⟨if_pos htag, by omega, rfl⟩,
        fun _ => rfl⟩
      · unfold arrayCls
        split
        · omega
        · split <;> omega
      · rcases harray with rfl | rfl <;> decide
  next harray =>
  rw [not_or] at harray
  split at h
  · next htag =>
    cases hcount : cidArity u aux with
    | error message =>
      rw [hcount] at h
      cases h
    | ok arity =>
      rw [hcount] at h
      cases h
      exact shaped_fit 0 (cidArity_le hcount) (htag ▸ by decide) harray.2 harray.1
        (by decide)
  split at h
  · next htag =>
    split at h
    · cases h
    · cases h
      exact shaped_fit 0 (closureCaptures_le aux) (htag ▸ by decide) harray.2 harray.1
        (by decide)
  split at h
  · next htag =>
    cases hcount : fidArity u.toSetting aux with
    | error message =>
      rw [hcount] at h
      cases h
    | ok arity =>
      rw [hcount] at h
      cases h
      exact shaped_fit 2 (fidArity_le hcount) (htag ▸ by decide) harray.2 harray.1
        (Nat.le_refl 2)
  · cases h

/-! ## 2. Blocks -/

/-- What a block is for: the fields of a value, or the number of owners of such a block. -/
inductive Role where
  | payload (tag aux : Nat)
  | counter (loc : Nat)

section Blocks

variable (u : Program)

def blockCls : Role → Nat
  | .payload tag aux =>
    match dropShape u tag aux with
    | .ok (cls, _) => cls
    | .error _ => 0
  | .counter _ => 0

/-- The cells of a block that may own something. -/
def fieldCount : Role → Nat
  | .payload tag aux =>
    if tag = tagArr then 2 ^ aux
    else
      match dropShape u tag aux with
      | .ok (_, count) => count
      | .error _ => 0
  | .counter _ => 0

def blockOf (role : Nat → Role) (loc : Nat) : Block := ⟨loc, blockCls u (role loc)⟩

/-- The words that are owned in some cells. -/
def words (cells : Nat → Nat) (owned : Nat → Bool) (loc : Nat) : Nat → List Nat
  | 0 => []
  | count + 1 =>
    if owned loc then cells loc :: words cells owned (loc + 1) count
    else words cells owned (loc + 1) count

/-- What words name. -/
def targets (terms : Multiset Nat) : Multiset Nat :=
  (terms.filter fun term => termTriv term = false).map termLoc

/-- The words that a block owns. -/
def fields (role : Nat → Role) (h : Heap) (loc : Nat) : Multiset Nat :=
  words h.cells h.owned loc (fieldCount u (role loc))

/-- What a block names. -/
def out (role : Nat → Role) (h : Heap) (loc : Nat) : Multiset Nat :=
  match role loc with
  | .payload _ _ => targets (fields u role h loc)
  | .counter payload => {payload}

/-- How often a block is named. -/
def need (role : Nat → Role) (h : Heap) (loc : Nat) : Nat :=
  match role loc with
  | .payload _ _ => 1
  | .counter _ => h.cells loc % 2 ^ 24

/-- A word names what it says that it names. -/
def Agrees (role : Nat → Role) (term : Nat) : Prop :=
  if termRfc term then
    ∃ loc, role (termLoc term) = .counter loc ∧ role loc = .payload (termTag term) (termAux term)
  else role (termLoc term) = .payload (termTag term) (termAux term)

/-- A block is what its role says. -/
def Filled (role : Nat → Role) (h : Heap) (loc : Nat) : Prop :=
  match role loc with
  | .payload tag aux => (∃ shape, dropShape u tag aux = .ok shape) ∧
      (tag = tagClo → ∀ i < fieldCount u (role loc), h.owned (loc + i))
  | .counter payload => h.cells loc / 2 ^ 24 = payload ∧ h.cells loc % 2 ^ 24 < rfcCnt ∧
      h.sealed payload ∧ ∃ tag aux, role payload = .payload tag aux ∧ countable tag

/-- **The ownership of the blocks is exact.** -/
structure Owned (role : Nat → Role) (h : Heap) (nodes roots : Multiset Nat) : Prop where
  counted : Counted (need role h) (out u role h) nodes (targets roots)
  agree : ∀ term ∈ roots, termTriv term = false → Agrees role term
  fields_agree : ∀ loc ∈ nodes, ∀ term ∈ fields u role h loc, termTriv term = false →
    Agrees role term
  filled : ∀ loc ∈ nodes, Filled u role h loc

end Blocks

/-! ## 3. Words -/

section Words

variable {cells cells' : Nat → Nat} {owned owned' : Nat → Bool} {loc count term cell : Nat}
  {roots roots' : Multiset Nat}

/-- The words of a block are read from its cells only. -/
theorem words_congr (h : ∀ l, loc ≤ l → l < loc + count → cells' l = cells l ∧ owned' l = owned l) :
    words cells' owned' loc count = words cells owned loc count := by
  induction count generalizing loc with
  | zero => rfl
  | succ count ih =>
    obtain ⟨hcells, howned⟩ := h loc (Nat.le_refl _) (by omega)
    rw [words, words, hcells, howned, ih fun l hlo hhi => h l (by omega) (by omega)]

theorem targets_add : targets (roots + roots') = targets roots + targets roots' := by
  rw [targets, Multiset.filter_add, Multiset.map_add]
  rfl

theorem targets_cons_trivial (h : termTriv term = true) :
    targets (term ::ₘ roots) = targets roots := by
  rw [targets, Multiset.filter_cons_of_neg _ (by simp [h])]
  rfl

/-- Another one points to its block. -/
theorem targets_cons (h : termTriv term = false) :
    targets (term ::ₘ roots) = termLoc term ::ₘ targets roots := by
  rw [targets, Multiset.filter_cons_of_pos (p := fun term => termTriv term = false) _ h,
    Multiset.map_cons]
  rfl

theorem mem_targets (hterm : term ∈ roots) (h : termTriv term = false) :
    termLoc term ∈ targets roots :=
  Multiset.mem_map_of_mem _ (Multiset.mem_filter.2 ⟨hterm, h⟩)

theorem termLoc_withLoc (h : loc < 2 ^ 40) : termLoc (withLoc term loc) = loc := by
  rw [termLoc, withLoc]
  omega

theorem termTag_withLoc (h : loc < 2 ^ 40) : termTag (withLoc term loc) = termTag term := by
  rw [termTag, termTag, withLoc]
  omega

theorem termAux_withLoc (h : loc < 2 ^ 40) : termAux (withLoc term loc) = termAux term := by
  rw [termAux, termAux, withLoc]
  omega

theorem termRfc_withLoc (h : loc < 2 ^ 40) : termRfc (withLoc term loc) = false := by
  rw [termRfc, withLoc, decide_eq_false_iff_not]
  omega

theorem termLoc_withCell (h : cell < 2 ^ 40) : termLoc (withCell term cell) = cell := by
  rw [termLoc, withCell]
  omega

theorem termTag_withCell (h : cell < 2 ^ 40) : termTag (withCell term cell) = termTag term := by
  rw [termTag, termTag, withCell]
  omega

theorem termAux_withCell (h : cell < 2 ^ 40) : termAux (withCell term cell) = termAux term := by
  rw [termAux, termAux, withCell]
  omega

theorem termRfc_withCell (h : cell < 2 ^ 40) : termRfc (withCell term cell) = true := by
  rw [termRfc, withCell, decide_eq_true_iff]
  omega

/-- A value that may be shared is not trivial. -/
theorem not_triv_of_countable (h : countable (termTag term)) : termTriv term = false := by
  have hhole : term ≠ termHole := by
    rintro rfl
    revert h
    decide
  have htag : termTag term ≠ tagClo := by
    rintro heq
    rw [heq] at h
    revert h
    decide
  have hpak : ¬termTag term ≤ tagPak := by
    rcases h with h | h | h <;> rw [h] <;> decide
  simp [termTriv, hhole, htag, hpak]

end Words

/-! ## 4. Changes elsewhere -/

section Changes

variable {role role' : Nat → Role} {h h' h'' : Heap} {nodes roots : Multiset Nat}
  {loc term tag aux : Nat} {P : Nat → Prop}

/-- The heap is the same in these blocks; more of them may be sealed. -/
structure SameAt (u : Program) (role : Nat → Role) (P : Nat → Prop) (h h' : Heap) : Prop where
  cells : ∀ x, P x → ∀ l, (blockOf u role x).Has l → h'.cells l = h.cells l
  owned : ∀ x, P x → ∀ l, (blockOf u role x).Has l → h'.owned l = h.owned l

theorem SameAt.trans (hs : SameAt u role P h h') (hs' : SameAt u role P h' h'') :
    SameAt u role P h h'' where
  cells x hx l hl := (hs'.cells x hx l hl).trans (hs.cells x hx l hl)
  owned x hx l hl := (hs'.owned x hx l hl).trans (hs.owned x hx l hl)

/-- What changes inside a block changes no other one. -/
theorem SameAt.beside {b : Block} (hb : Beside b h h')
    (hP : ∀ x, P x → ∀ l, (blockOf u role x).Has l → ¬b.Has l) : SameAt u role P h h' where
  cells x hx l hl := hb.cells l (hP x hx l hl)
  owned x hx l hl := hb.owned (hP x hx l hl)

/-- The fields of a block lie in it. -/
theorem fieldCount_le (hfilled : Filled u role h loc) :
    fieldCount u (role loc) ≤ (blockOf u role loc).size := by
  rw [blockOf]
  cases hrole : role loc with
  | counter payload => exact Nat.zero_le _
  | payload tag aux =>
    rw [Filled, hrole] at hfilled
    obtain ⟨⟨⟨cls, count⟩, hshape⟩, -⟩ := hfilled
    have hshaped := dropShape_spec hshape
    simp only [fieldCount, blockCls, hshape, Block.size]
    split
    · next htag => rw [(hshaped.array htag).1]
    · exact hshaped.fits

/-- A block that is not touched has the same fields. -/
theorem fields_same (hs : SameAt u role P h h') (hP : P loc) (hfilled : Filled u role h loc) :
    fields u role h' loc = fields u role h loc := by
  have hfit := fieldCount_le hfilled
  refine congrArg _ (words_congr fun l hlo hhi => ?_)
  have hl : (blockOf u role loc).Has l := ⟨hlo, Nat.lt_of_lt_of_le hhi (Nat.add_le_add_left hfit _)⟩
  exact ⟨hs.cells loc hP l hl, hs.owned loc hP l hl⟩

/-- And points to the same blocks. -/
theorem out_same (hs : SameAt u role P h h') (hP : P loc) (hfilled : Filled u role h loc) :
    out u role h' loc = out u role h loc := by
  have hfields := fields_same hs hP hfilled
  rw [out, out]
  cases role loc with
  | counter payload => rfl
  | payload tag aux => exact congrArg targets hfields

/-- It is needed as often. -/
theorem need_same (hs : SameAt u role P h h') (hP : P loc) :
    need role h' loc = need role h loc := by
  have hcell := hs.cells loc hP loc (Block.has_start _)
  rw [need, need]
  cases role loc with
  | counter payload => exact congrArg (· % 2 ^ 24) hcell
  | payload tag aux => rfl

/-- And it stays filled. -/
theorem filled_same (hs : SameAt u role P h h') (hP : P loc) (hfilled : Filled u role h loc)
    (hsealed : ∀ payload, role loc = .counter payload → h.sealed payload → h'.sealed payload) :
    Filled u role h' loc := by
  have hfit := fieldCount_le hfilled
  have hcell := hs.cells loc hP loc (Block.has_start _)
  have howned := hs.owned loc hP
  rw [Filled] at hfilled ⊢
  cases hrole : role loc with
  | counter payload =>
    rw [hrole] at hfilled
    obtain ⟨hpayload, hcount, hseal, hcountable⟩ := hfilled
    exact ⟨by rwa [hcell], by rwa [hcell], hsealed payload hrole hseal, hcountable⟩
  | payload tag aux =>
    rw [hrole] at hfilled
    refine ⟨hfilled.1, fun htag i hi => ?_⟩
    rw [howned (loc + i) ⟨Nat.le_add_right .., ?_⟩]
    · exact hfilled.2 htag i hi
    · rw [hrole] at hfit
      exact Nat.add_lt_add_left (Nat.lt_of_lt_of_le hi hfit) _

namespace Owned

/-- Nothing is owned. -/
theorem empty (role : Nat → Role) (h : Heap) : Owned u role h 0 0 where
  counted := ⟨Multiset.nodup_zero, rfl, nofun, fun _ => 0, nofun⟩
  agree := nofun
  fields_agree := nofun
  filled := nofun

theorem mem_root (ho : Owned u role h nodes roots) (hterm : term ∈ roots)
    (htriv : termTriv term = false) : termLoc term ∈ nodes :=
  ho.counted.mem_of_root (mem_targets hterm htriv)

/-- The payload of a counter is there. -/
theorem mem_payload (ho : Owned u role h nodes roots) (hloc : loc ∈ nodes) {payload : Nat}
    (hrole : role loc = .counter payload) : payload ∈ nodes := by
  refine ho.counted.mem_of_out hloc ?_
  rw [out, hrole]
  exact Multiset.mem_singleton_self _

/-- So does a field. -/
theorem mem_field (ho : Owned u role h nodes roots) (hloc : loc ∈ nodes)
    (hrole : role loc = .payload tag aux) (hterm : term ∈ fields u role h loc)
    (htriv : termTriv term = false) : termLoc term ∈ nodes := by
  refine ho.counted.mem_of_out hloc ?_
  rw [out, hrole]
  exact mem_targets hterm htriv

/-- A change that leaves the blocks as they are. -/
theorem same (ho : Owned u role h nodes roots) (hs : SameAt u role (· ∈ nodes) h h')
    (hsealed : ∀ x ∈ nodes, h.sealed x → h'.sealed x) : Owned u role h' nodes roots where
  counted := ho.counted.congr (fun _ hx => need_same hs hx) fun x hx =>
    out_same hs hx (ho.filled x hx)
  agree := ho.agree
  fields_agree x hx term hterm :=
    ho.fields_agree x hx term (fields_same hs hx (ho.filled x hx) ▸ hterm)
  filled x hx := filled_same hs hx (ho.filled x hx) fun payload hrole =>
    hsealed payload (ho.mem_payload hx hrole)

/-- A trivial root may go. -/
theorem drop_trivial (ho : Owned u role h nodes (term ::ₘ roots)) (htriv : termTriv term = true) :
    Owned u role h nodes roots where
  counted := targets_cons_trivial htriv ▸ ho.counted
  agree t ht := ho.agree t (Multiset.mem_cons_of_mem ht)
  fields_agree := ho.fields_agree
  filled := ho.filled

/-- Or be added. -/
theorem add_trivial (ho : Owned u role h nodes roots) (htriv : termTriv term = true) :
    Owned u role h nodes (term ::ₘ roots) where
  counted := (targets_cons_trivial htriv).symm ▸ ho.counted
  agree t ht hfalse := by
    rcases Multiset.mem_cons.1 ht with rfl | ht
    · rw [htriv] at hfalse
      cases hfalse
    · exact ho.agree t ht hfalse
  fields_agree := ho.fields_agree
  filled := ho.filled

/-- The fields of a value with one owner are taken. -/
theorem take (ho : Owned u role h (termLoc term ::ₘ nodes) (term ::ₘ roots))
    (htriv : termTriv term = false) (hrfc : termRfc term = false) :
    Owned u role h nodes (fields u role h (termLoc term) + roots) := by
  have hagree := ho.agree term (Multiset.mem_cons_self _ _) htriv
  rw [Agrees, hrfc, if_neg Bool.false_ne_true] at hagree
  have hcounted := ho.counted
  rw [targets_cons htriv] at hcounted
  have hremoved := hcounted.remove (by rw [need, hagree])
  rw [out, hagree, ← targets_add] at hremoved
  refine ⟨hremoved, fun t ht hfalse => ?_,
    fun x hx => ho.fields_agree x (Multiset.mem_cons_of_mem hx),
    fun x hx => ho.filled x (Multiset.mem_cons_of_mem hx)⟩
  rcases Multiset.mem_add.1 ht with ht | ht
  · exact ho.fields_agree _ (Multiset.mem_cons_self _ _) t ht hfalse
  · exact ho.agree t (Multiset.mem_cons_of_mem ht) hfalse

/-- Blocks that are no nodes may get another role. -/
theorem rerole (ho : Owned u role h nodes roots) (hrole : ∀ x ∈ nodes, role' x = role x) :
    Owned u role' h nodes roots := by
  have hfields : ∀ x ∈ nodes, fields u role' h x = fields u role h x := fun x hx => by
    rw [fields, fields, hrole x hx]
  have hagree (t : Nat) (hmem : termLoc t ∈ nodes) (h : Agrees role t) : Agrees role' t := by
    rw [Agrees] at h ⊢
    rw [hrole _ hmem]
    split
    · next hrfc =>
      rw [if_pos hrfc] at h
      obtain ⟨payload, hcounter, hpayload⟩ := h
      exact ⟨payload, hcounter, (hrole _ (ho.mem_payload hmem hcounter)).trans hpayload⟩
    · next hrfc =>
      rwa [if_neg hrfc] at h
  refine ⟨ho.counted.congr (fun x hx => by rw [need, need, hrole x hx]) fun x hx => ?_,
    fun t ht htriv => hagree t (ho.mem_root ht htriv) (ho.agree t ht htriv),
    fun x hx t ht htriv => ?_, fun x hx => ?_⟩
  · rw [out, out, hrole x hx, hfields x hx]
  · rw [hfields x hx] at ht
    cases hx' : role x with
    | counter payload =>
      rw [fields, hx'] at ht
      cases ht
    | payload tag aux =>
      exact hagree t (ho.mem_field hx hx' ht htriv) (ho.fields_agree x hx t ht htriv)
  · have hfilled := ho.filled x hx
    rw [Filled] at hfilled ⊢
    rw [hrole x hx]
    cases hx' : role x with
    | counter payload =>
      rw [hx'] at hfilled
      obtain ⟨hcell, hlt, hsealed, tag, aux, hpayload, hcountable⟩ := hfilled
      exact ⟨hcell, hlt, hsealed, tag, aux, (hrole _ (ho.mem_payload hx hx')).trans hpayload,
        hcountable⟩
    | payload tag aux =>
      rw [hx'] at hfilled
      exact hfilled

/-- A block with its fields becomes a value with one owner. -/
theorem make (ho : Owned u role h nodes (fields u role h (termLoc term) + roots))
    (hnew : termLoc term ∉ nodes) (hfilled : Filled u role h (termLoc term))
    (hrole : role (termLoc term) = .payload (termTag term) (termAux term))
    (htriv : termTriv term = false) (hrfc : termRfc term = false) :
    Owned u role h (termLoc term ::ₘ nodes) (term ::ₘ roots) where
  counted := by
    have hcounted := ho.counted
    rw [targets_add] at hcounted
    have hout : out u role h (termLoc term) = targets (fields u role h (termLoc term)) := by
      rw [out, hrole]
    have hneed : need role h (termLoc term) = 1 := by rw [need, hrole]
    rw [← hout] at hcounted
    have hinsert := hcounted.insert hnew (by rw [hneed]; decide)
    rwa [hneed, Multiset.replicate_one, Multiset.singleton_add, ← targets_cons htriv] at hinsert
  agree t ht hfalse := by
    rcases Multiset.mem_cons.1 ht with rfl | ht
    · rw [Agrees, hrfc, if_neg Bool.false_ne_true]
      exact hrole
    · exact ho.agree t (Multiset.mem_add.2 (.inr ht)) hfalse
  fields_agree x hx t ht hfalse := by
    rcases Multiset.mem_cons.1 hx with rfl | hx
    · exact ho.agree t (Multiset.mem_add.2 (.inl ht)) hfalse
    · exact ho.fields_agree x hx t ht hfalse
  filled x hx := by
    rcases Multiset.mem_cons.1 hx with rfl | hx
    · exact hfilled
    · exact ho.filled x hx

/-- The only owner of a value is replaced by the owners of a counter. -/
theorem share {cell count : Nat} (ho : Owned u role h nodes (term ::ₘ roots))
    (hcountable : countable (termTag term)) (hrfc : termRfc term = false) (hnew : cell ∉ nodes)
    (hlt : cell < 2 ^ 40) (hrole : role cell = .counter (termLoc term))
    (hcell : h.cells cell / 2 ^ 24 = termLoc term) (hmod : h.cells cell % 2 ^ 24 = count)
    (hcount : 0 < count ∧ count < rfcCnt) (hsealed : h.sealed (termLoc term)) :
    Owned u role h (cell ::ₘ nodes)
      (Multiset.replicate count (withCell term cell) + roots) := by
  have htriv := not_triv_of_countable hcountable
  have htriv' : termTriv (withCell term cell) = false :=
    not_triv_of_countable (by rwa [termTag_withCell hlt])
  have hagree := ho.agree term (Multiset.mem_cons_self _ _) htriv
  rw [Agrees, if_neg (Bool.eq_false_iff.1 hrfc)] at hagree
  have hcounted := ho.counted
  have hout : out u role h cell = {termLoc term} := by rw [out, hrole]
  have hneed : need role h cell = count := by
    rw [need, hrole]
    exact hmod
  rw [targets_cons htriv, ← Multiset.singleton_add, ← hout] at hcounted
  have hinsert := hcounted.insert hnew (by rw [hneed]; exact hcount.1)
  refine ⟨?_, fun t ht hfalse => ?_, fun x hx t ht => ?_, fun x hx => ?_⟩
  · have hwords : targets (Multiset.replicate count (withCell term cell)) =
        Multiset.replicate count cell := by
      rw [targets, Multiset.filter_eq_self.2 fun t ht => Multiset.eq_of_mem_replicate ht ▸ htriv',
        Multiset.map_replicate, termLoc_withCell hlt]
    rw [targets_add, hwords]
    rwa [hneed] at hinsert
  · rcases Multiset.mem_add.1 ht with ht | ht
    · rw [Multiset.eq_of_mem_replicate ht, Agrees, if_pos (termRfc_withCell hlt),
        termLoc_withCell hlt, termTag_withCell hlt, termAux_withCell hlt]
      exact ⟨termLoc term, hrole, hagree⟩
    · exact ho.agree t (Multiset.mem_cons_of_mem ht) hfalse
  · rcases Multiset.mem_cons.1 hx with rfl | hx
    · rw [fields, hrole] at ht
      cases ht
    · exact ho.fields_agree x hx t ht
  · rcases Multiset.mem_cons.1 hx with rfl | hx
    · rw [Filled, hrole]
      exact ⟨hcell, hmod ▸ hcount.2, hsealed, _, _, hagree, hcountable⟩
    · exact ho.filled x hx

/-- The last owner of a value becomes its only one. -/
theorem claim (ho : Owned u role h (termLoc term ::ₘ nodes) (term ::ₘ roots))
    (htriv : termTriv term = false) (hrfc : termRfc term = true)
    (hcount : h.cells (termLoc term) % 2 ^ 24 = 1)
    (hloc : h.cells (termLoc term) / 2 ^ 24 < 2 ^ 40) :
    Owned u role h nodes (withLoc term (h.cells (termLoc term) / 2 ^ 24) ::ₘ roots) := by
  have hagree := ho.agree term (Multiset.mem_cons_self _ _) htriv
  rw [Agrees, if_pos hrfc] at hagree
  obtain ⟨payload, hrole, hpayload⟩ := hagree
  have hfilled := ho.filled _ (Multiset.mem_cons_self _ _)
  rw [Filled, hrole] at hfilled
  obtain ⟨hcell, -, -, tag, aux, htag, hcountable⟩ := hfilled
  rw [hcell] at hloc ⊢
  obtain ⟨rfl, rfl⟩ := Role.payload.inj (hpayload.symm.trans htag)
  have htriv' : termTriv (withLoc term payload) = false :=
    not_triv_of_countable (by rwa [termTag_withLoc hloc])
  have hcounted := ho.counted
  rw [targets_cons htriv] at hcounted
  have hremoved := hcounted.remove (by rw [need, hrole]; exact hcount)
  rw [out, hrole, Multiset.singleton_add] at hremoved
  refine ⟨?_, fun t ht hfalse => ?_, fun x hx => ho.fields_agree x (Multiset.mem_cons_of_mem hx),
    fun x hx => ho.filled x (Multiset.mem_cons_of_mem hx)⟩
  · rw [targets_cons htriv', termLoc_withLoc hloc]
    exact hremoved
  · rcases Multiset.mem_cons.1 ht with rfl | ht
    · rw [Agrees, termRfc_withLoc hloc, if_neg Bool.false_ne_true, termLoc_withLoc hloc,
        termTag_withLoc hloc, termAux_withLoc hloc]
      exact hpayload
    · exact ho.agree t (Multiset.mem_cons_of_mem ht) hfalse

/-- A counter counts anew. -/
theorem recount {roots' : Multiset Nat} (ho : Owned u role h nodes roots)
    (hrole : role loc = .counter (h'.cells loc / 2 ^ 24)) (hlt : h'.cells loc % 2 ^ 24 < rfcCnt)
    (hs : SameAt u role (fun x => x ∈ nodes ∧ x ≠ loc) h h')
    (hsealed : ∀ x ∈ nodes, h.sealed x → h'.sealed x)
    (hcounted : Counted (need role h') (out u role h) nodes (targets roots'))
    (hagree : ∀ t ∈ roots', termTriv t = false → Agrees role t) : Owned u role h' nodes roots' where
  counted := hcounted.congr (fun _ _ => rfl) fun x hx => by
    by_cases hne : x = loc
    · rw [hne, out, out, hrole]
    · exact out_same hs ⟨hx, hne⟩ (ho.filled x hx)
  agree := hagree
  fields_agree x hx t ht := by
    by_cases hne : x = loc
    · rw [hne, fields, hrole] at ht
      cases ht
    · exact ho.fields_agree x hx t (fields_same hs ⟨hx, hne⟩ (ho.filled x hx) ▸ ht)
  filled x hx := by
    by_cases hne : x = loc
    · subst hne
      have hfilled := ho.filled x hx
      have hpayload := ho.mem_payload hx hrole
      rw [Filled, hrole] at hfilled ⊢
      exact ⟨rfl, hlt, hsealed _ hpayload hfilled.2.2.1, hfilled.2.2.2⟩
    · exact filled_same hs ⟨hx, hne⟩ (ho.filled x hx) fun payload hpayload =>
        hsealed payload (ho.mem_payload hx hpayload)

end Owned

end Changes

/-! ## 5. Blocks that are held -/

section Held

variable {role : Nat → Role} {h h' : Heap} {nodes roots : Multiset Nat} {rest : Multiset Block}
  {loc payload : Nat}

/-- The heap is the same in these blocks. -/
structure Untouched (blocks : Multiset Block) (h h' : Heap) : Prop where
  cells : ∀ b ∈ blocks, ∀ l, b.Has l → h'.cells l = h.cells l
  metadata : ∀ b ∈ blocks, ∀ l, b.Has l → h'.metadata l = h.metadata l

theorem Untouched.refl (blocks : Multiset Block) (h : Heap) : Untouched blocks h h :=
  ⟨fun _ _ _ _ => rfl, fun _ _ _ _ => rfl⟩

theorem Untouched.owned (hu : Untouched rest h h') {b : Block} (hb : b ∈ rest) {l : Nat}
    (hl : b.Has l) : h'.owned l = h.owned l := by
  rw [Heap.owned, Heap.owned, hu.metadata b hb l hl]

theorem Untouched.mono {blocks : Multiset Block} (hu : Untouched rest h h')
    (hsub : ∀ b ∈ blocks, b ∈ rest) : Untouched blocks h h' :=
  ⟨fun b hb => hu.cells b (hsub b hb), fun b hb => hu.metadata b (hsub b hb)⟩

/-- What changes inside a block in hand changes no other one. -/
theorem Untouched.beside {b : Block} (hh : h.Holds (b ::ₘ rest)) (hb : Beside b h h') :
    Untouched rest h h' :=
  ⟨fun _ hc l hl => hb.cells l (hh.apart hc hl), fun _ hc l hl => hb.metadata l (hh.apart hc hl)⟩

/-- The blocks of the nodes. -/
def blocks (u : Program) (role : Nat → Role) (nodes : Multiset Nat) : Multiset Block :=
  nodes.map (blockOf u role)

theorem mem_blocks (hloc : loc ∈ nodes) : blockOf u role loc ∈ blocks u role nodes :=
  Multiset.mem_map_of_mem _ hloc

theorem blocks_cons : blocks u role (loc ::ₘ nodes) = blockOf u role loc ::ₘ blocks u role nodes :=
  Multiset.map_cons ..

theorem Untouched.same (hu : Untouched (blocks u role nodes) h h') :
    SameAt u role (· ∈ nodes) h h' where
  cells _ hx := hu.cells _ (mem_blocks hx)
  owned _ hx _ hl := hu.owned (mem_blocks hx) hl

/-- **A structure that is not touched stays owned.** -/
theorem Owned.untouched (ho : Owned u role h nodes roots)
    (hu : Untouched (blocks u role nodes) h h') : Owned u role h' nodes roots := by
  refine ho.same hu.same fun x hx hsealed => ?_
  rw [Heap.sealed] at hsealed ⊢
  rwa [hu.metadata _ (mem_blocks hx) x (Block.has_start _)]

theorem mem_held (hloc : loc ∈ nodes) : blockOf u role loc ∈ blocks u role nodes + rest :=
  Multiset.mem_add.2 (.inl (mem_blocks hloc))

theorem blockOf_counter (hrole : role loc = .counter payload) : blockOf u role loc = ⟨loc, 0⟩ := by
  rw [blockOf, hrole, blockCls]

theorem blockOf_payload {tag aux cls count : Nat} (hrole : role loc = .payload tag aux)
    (hshape : dropShape u tag aux = .ok (cls, count)) : blockOf u role loc = ⟨loc, cls⟩ := by
  rw [blockOf, hrole, blockCls, hshape]

/-- The number of owners of a value is read. -/
theorem Owned.rfcView (ho : Owned u role h nodes roots)
    (hh : h.Holds (blocks u role nodes + rest)) (hloc : loc ∈ nodes)
    (hrole : role loc = .counter payload) :
    rfcView loc ⟨h.memory⟩ h = .ok (h.cells loc) ∧ h.cells loc / 2 ^ 24 = payload ∧
      0 < h.cells loc % 2 ^ 24 ∧ payload ∈ nodes := by
  have hfilled := ho.filled loc hloc
  rw [Filled, hrole] at hfilled
  obtain ⟨hcell, hlt, hsealed, -⟩ := hfilled
  have hpositive := ho.counted.positive loc hloc
  rw [need, hrole] at hpositive
  have hpayload := ho.mem_payload hloc hrole
  have hallocation := hh.allocation (mem_held hloc)
  rw [blockOf_counter hrole] at hallocation
  have hspan : BlockHeap.tbSpanLocked ⟨h.memory⟩ payload 1 h = .ok () :=
    hh.span (mem_held hpayload) (Block.has_start _) (blockOf u role payload).has_start.2
  refine ⟨?_, hcell, hpositive, hpayload⟩
  rw [Values.rfcView, hallocation]
  dsimp only
  rw [if_neg (not_or.2 ⟨hpositive.ne', hlt.ne⟩), hcell, hspan]
  refine if_neg fun hzero => ?_
  rw [Heap.sealed, hzero] at hsealed
  cases hsealed

end Held

end TeamyBend.Runtime.Values
