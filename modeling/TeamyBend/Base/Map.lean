/-
# The bundled Patricia map

`Map<a, V>` is a crit-bit tree over string keys.  Its operations spend the map and the key and
give both back, so each is stated here with the pairs the source builds; the quantity argument
`a` and the erased type `V` carry no data.  A function the source inlines as a matcher lambda
is written at its call.

Each operation is the library's operation on the tree beside the map it returns (`put_eq`,
`ins_eq`, `seek_eq`, `get_eq`, `has_eq`, `pop_eq`): the searches rebuild the tree they walk
through.  `Map.set` is correct because `Map.seek` stops at a leaf from which `Map.diff` finds
the place of the new node (`wf_set`, `lookup_set`).
-/
import TeamyBend.Base.Text
import Mathlib.Data.Finmap

namespace TeamyBend.Base

open CritBit (Trie Wf Differ)

universe u v

/-! ## 1. The map and its operations -/

/-- `type Map<a, V>`. -/
abbrev Map (V : Type u) := Trie String V

namespace Map

variable {V : Type u} {R : Type v}

/-- `MTip{}`. -/
@[match_pattern] abbrev MTip : Map V := Trie.tip

/-- `MLeaf{key, val}`. -/
@[match_pattern] abbrev MLeaf (key : String) (val : V) : Map V := Trie.leaf key val

/-- `MNode{pos, lo, hi}`. -/
@[match_pattern] abbrev MNode (pos : Nat) (lo hi : Map V) : Map V := Trie.node pos lo hi

/-- `Map.new`. -/
def new : Map V := MTip

/-- `Map.put`. -/
def put : Map V → String → V → Map V
  | MTip, key, x => MLeaf key x
  | MLeaf k _, _, x => MLeaf k x
  | MNode pos lo hi, key, x =>
    match bit key pos with
    | (key2, false) => MNode pos (put lo key2 x) hi
    | (key2, true) => MNode pos lo (put hi key2 x)

/-- `Map.ins.splice.bit`. -/
def insSpliceBit (x : V) (rest : Map V) (pb : Nat) (kb : String × Bool) : Map V :=
  match kb with
  | (key2, false) => MNode pb (MLeaf key2 x) rest
  | (key2, true) => MNode pb rest (MLeaf key2 x)

/-- `Map.ins.splice`. -/
def insSplice (p : Nat) (key : String) (x : V) (rest : Map V) : Map V :=
  insSpliceBit x rest p (bit key p)

/-- `Map.ins`. -/
def ins : Map V → String → V → Nat → Map V
  | MTip, key, x, _ => MLeaf key x
  | MLeaf k v, key, x, p => insSplice p key x (MLeaf k v)
  | MNode pos lo hi, key, x, p =>
    match natIsLt pos p with
    | false => insSplice p key x (MNode pos lo hi)
    | true =>
      match bit key pos with
      | (key2, false) => MNode pos (ins lo key2 x p) hi
      | (key2, true) => MNode pos lo (ins hi key2 x p)

/-- `Map.lo`. -/
def lo (p2 : Nat) (hi : Map V) (r0 : Map V × R) : Map V × R :=
  match r0 with
  | (lo2, r) => (MNode p2 lo2 hi, r)

/-- `Map.hi`. -/
def hi (p2 : Nat) (lo : Map V) (r0 : Map V × R) : Map V × R :=
  match r0 with
  | (hi2, r) => (MNode p2 lo hi2, r)

/-- `Map.seek`. -/
def seek : Map V → String → Map V × String × Option String
  | MTip, key => (MTip, key, none)
  | MLeaf k v, key => (MLeaf k v, key, some k)
  | MNode pos lo hi, key =>
    match bit key pos with
    | (key2, false) => Map.lo pos hi (seek lo key2)
    | (key2, true) => Map.hi pos lo (seek hi key2)

/-- `Map.set.fin.go`. -/
def setFinGo (m : Map V) (key : String) (x : V) (r : (String × String) × Cmp) : Map V :=
  match r with
  | ((keyb2, k2), .LT) => ins m key x (diff keyb2 k2)
  | ((_, _), .EQ) => put m key x
  | ((keyb2, k2), .GT) => ins m key x (diff keyb2 k2)

/-- `Map.set.fin`. -/
def setFin (m : Map V) (key : String) (x : V) (keyb k : String) : Map V :=
  setFinGo m key x (String.cmp keyb k)

/-- `Map.set.go`. -/
def setGo (x : V) (r : Map V × String × Option String) : Map V :=
  match r with
  | (_, key2, none) => MLeaf key2 x
  | (m2, ka, some k) => setFin m2 ka x ka k

/-- `Map.set`. -/
def set (m : Map V) (key : String) (x : V) : Map V := setGo x (seek m key)

/-- `Map.has.leaf`. -/
def hasLeaf (v : V) (r : (String × String) × Cmp) : Map V × Bool :=
  match r with
  | ((_, k2), c) => (MLeaf k2 v, c.isEq)

/-- `Map.has`. -/
def has : Map V → String → Map V × Bool
  | MTip, _ => (MTip, false)
  | MLeaf k v, key => hasLeaf v (String.cmp key k)
  | MNode pos lo hi, key =>
    match bit key pos with
    | (key2, false) => Map.lo pos hi (has lo key2)
    | (key2, true) => Map.hi pos lo (has hi key2)

/-- `Map.get.leaf`. -/
def getLeaf (d v : V) (r : (String × String) × Cmp) : Map V × V :=
  match r with
  | ((_, k2), .LT) => (MLeaf k2 v, d)
  | ((_, k2), .EQ) => (MLeaf k2 v, v)
  | ((_, k2), .GT) => (MLeaf k2 v, d)

/-- `Map.get`. -/
def get (d : V) : Map V → String → Map V × V
  | MTip, _ => (MTip, d)
  | MLeaf k v, key => getLeaf d v (String.cmp key k)
  | MNode pos lo hi, key =>
    match bit key pos with
    | (key2, false) => Map.lo pos hi (get d lo key2)
    | (key2, true) => Map.hi pos lo (get d hi key2)

/-- `Map.pop.lo`. -/
def popLo (pos : Nat) (hi : Map V) (r0 : Map V × Option V) : Map V × Option V :=
  match r0 with
  | (MTip, r) => (hi, r)
  | (lo2, r) => (MNode pos lo2 hi, r)

/-- `Map.pop.hi`. -/
def popHi (pos : Nat) (lo : Map V) (r0 : Map V × Option V) : Map V × Option V :=
  match r0 with
  | (MTip, r) => (lo, r)
  | (hi2, r) => (MNode pos lo hi2, r)

/-- `Map.pop.leaf`. -/
def popLeaf (v : V) (r : (String × String) × Cmp) : Map V × Option V :=
  match r with
  | ((_, k2), .LT) => (MLeaf k2 v, none)
  | ((_, _), .EQ) => (MTip, some v)
  | ((_, k2), .GT) => (MLeaf k2 v, none)

/-- `Map.pop`. -/
def pop : Map V → String → Map V × Option V
  | MTip, _ => (MTip, none)
  | MLeaf k v, key => popLeaf v (String.cmp key k)
  | MNode pos lo hi, key =>
    match bit key pos with
    | (key2, false) => popLo pos hi (pop lo key2)
    | (key2, true) => popHi pos lo (pop hi key2)

/-- `Map.del`. -/
def del (m : Map V) (key : String) : Map V := (pop m key).1

/-- `Map.to_list.go`. -/
def toListGo : Map V → List (String × V) → List (String × V)
  | MTip, acc => acc
  | MLeaf k v, acc => (k, v) :: acc
  | MNode _ lo hi, acc => toListGo lo (toListGo hi acc)

/-- `Map.to_list`. -/
def toList (m : Map V) : List (String × V) := toListGo m []

/-- `Map.keys.go`. -/
def keysGo : Map V → List String → List String
  | MTip, acc => acc
  | MLeaf k _, acc => k :: acc
  | MNode _ lo hi, acc => keysGo lo (keysGo hi acc)

/-- `Map.keys`. -/
def keys (m : Map V) : List String := keysGo m []

/-- `Map.size`. -/
def size : Map V → Nat
  | MTip => 0
  | MLeaf _ _ => 1
  | MNode _ lo hi => size lo + size hi

/-! ## 2. The operations are the library's -/

@[simp] theorem put_eq (m : Map V) (key : String) (x : V) :
    put m key x = CritBit.put keyBit m key x := by
  induction m with
  | tip => rfl
  | leaf k v => rfl
  | node pos lo hi ihlo ihhi =>
    rw [put, CritBit.put, bit_eq]
    cases keyBit key pos <;> simp [ihlo, ihhi]

theorem insSplice_eq (p : Nat) (key : String) (x : V) (rest : Map V) :
    insSplice p key x rest = CritBit.splice keyBit p key x rest := by
  rw [insSplice, CritBit.splice, bit_eq]
  cases keyBit key p <;> rfl

@[simp] theorem ins_eq (m : Map V) (key : String) (x : V) (p : Nat) :
    ins m key x p = CritBit.ins keyBit m key x p := by
  induction m with
  | tip => rfl
  | leaf k v => exact insSplice_eq p key x _
  | node pos lo hi ihlo ihhi =>
    rw [ins, CritBit.ins, natIsLt_eq, bit_eq]
    by_cases hp : pos < p
    · cases keyBit key pos <;> simp [hp, ihlo, ihhi]
    · simp [hp, insSplice_eq]

@[simp] theorem seek_eq (m : Map V) (key : String) :
    seek m key = (m, key, CritBit.seek keyBit m key) := by
  induction m with
  | tip => rfl
  | leaf k v => rfl
  | node pos lo hi ihlo ihhi =>
    rw [seek, CritBit.seek, bit_eq]
    cases keyBit key pos <;> simp [ihlo, ihhi, Map.lo, Map.hi]

/-- To ask for a key is to look it up. -/
theorem has_eq (m : Map V) (key : String) :
    has m key = (m, (CritBit.lookup keyBit m key).isSome) := by
  induction m with
  | tip => rfl
  | leaf k v =>
    have hk := String.order_eq_iff key k
    rw [has, String.cmp_eq, hasLeaf, CritBit.lookup]
    cases ho : String.order key k <;> simp_all [Cmp.isEq]
  | node pos lo hi ihlo ihhi =>
    rw [has, CritBit.lookup, bit_eq]
    cases keyBit key pos <;> simp [ihlo, ihhi, Map.lo, Map.hi]

/-- To get a key is to look it up, or the default. -/
theorem get_eq (d : V) (m : Map V) (key : String) :
    get d m key = (m, (CritBit.lookup keyBit m key).getD d) := by
  induction m with
  | tip => rfl
  | leaf k v =>
    have hk := String.order_eq_iff key k
    rw [get, String.cmp_eq, CritBit.lookup]
    cases ho : String.order key k <;> simp_all [getLeaf]
  | node pos lo hi ihlo ihhi =>
    rw [get, CritBit.lookup, bit_eq]
    cases keyBit key pos <;> simp [ihlo, ihhi, Map.lo, Map.hi]

theorem popLo_eq (pos : Nat) (lo hi : Map V) (hhi : hi ≠ MTip) (r : Option V) :
    popLo pos hi (lo, r) = (CritBit.join pos lo hi, r) := by
  cases lo <;> cases hi <;> first | exact absurd rfl hhi | rfl

theorem popHi_eq (pos : Nat) (lo hi : Map V) (hlo : lo ≠ MTip) (r : Option V) :
    popHi pos lo (hi, r) = (CritBit.join pos lo hi, r) := by
  cases lo <;> cases hi <;> first | exact absurd rfl hlo | rfl

/-- To pop a key is to look it up and erase it. -/
theorem pop_eq {m : Map V} (h : Wf keyBit m) (key : String) :
    pop m key = (CritBit.erase keyBit m key, CritBit.lookup keyBit m key) := by
  induction m with
  | tip => rfl
  | leaf k v =>
    have hk := String.order_eq_iff key k
    rw [pop, String.cmp_eq, CritBit.erase, CritBit.lookup]
    cases ho : String.order key k <;> simp_all [popLeaf]
  | node pos lo hi ihlo ihhi =>
    rw [pop, CritBit.erase, CritBit.lookup, bit_eq]
    cases keyBit key pos with
    | false =>
      rw [cond_false, cond_false, ← popLo_eq _ _ _ h.sides.2, ← ihlo h.lo]
    | true =>
      rw [cond_true, cond_true, ← popHi_eq _ _ _ h.sides.1, ← ihhi h.hi]

/-- The entries are put before the accumulator. -/
theorem toListGo_eq (m : Map V) (acc : List (String × V)) : toListGo m acc = m.entries ++ acc := by
  induction m generalizing acc with
  | tip => rfl
  | leaf k v => rfl
  | node pos lo hi ihlo ihhi => simp [toListGo, Trie.entries, ihlo, ihhi]

@[simp] theorem toList_eq (m : Map V) : toList m = m.entries := by
  simp [toList, toListGo_eq]

/-- The keys are put before the accumulator. -/
theorem keysGo_eq (m : Map V) (acc : List String) : keysGo m acc = Trie.keys m ++ acc := by
  induction m generalizing acc with
  | tip => rfl
  | leaf k v => rfl
  | node pos lo hi ihlo ihhi => simp [keysGo, ihlo, ihhi]

@[simp] theorem keys_eq (m : Map V) : keys m = Trie.keys m := by
  simp [keys, keysGo_eq]

@[simp] theorem size_eq (m : Map V) : size m = (Trie.keys m).length := by
  induction m with
  | tip => rfl
  | leaf k v => rfl
  | node pos lo hi ihlo ihhi => simp [size, ihlo, ihhi]

/-! ## 3. Setting and removing a key -/

/-- `Map.set` in terms of the leaf that `Map.seek` reaches. -/
theorem set_eq (m : Map V) (key : String) (x : V) :
    set m key x =
      match CritBit.seek keyBit m key with
      | none => MLeaf key x
      | some k =>
        if key = k then CritBit.put keyBit m key x
        else CritBit.ins keyBit m key x (diff key k) := by
  rw [set, seek_eq]
  cases CritBit.seek keyBit m key with
  | none => rfl
  | some k =>
    have hk := String.order_eq_iff key k
    simp only [setGo, setFin, String.cmp_eq]
    cases ho : String.order key k <;> simp_all [setFinGo]

/-- Setting keeps the map well-formed. -/
theorem wf_set {m : Map V} (h : Wf keyBit m) (key : String) (x : V) : Wf keyBit (set m key x) := by
  rw [set_eq]
  cases hs : CritBit.seek keyBit m key with
  | none => trivial
  | some k =>
    by_cases hk : key = k
    · simp only [hk, if_true]
      exact CritBit.wf_put h (by rw [← hs, hk]) x
    · simp only [hk, if_false]
      exact CritBit.wf_ins h hs (differ_diff hk) x

/-- Setting changes the answer at its own key only. -/
theorem lookup_set {m : Map V} (h : Wf keyBit m) (key : String) (x : V) (k : String) :
    CritBit.lookup keyBit (set m key x) k =
      if k = key then some x else CritBit.lookup keyBit m k := by
  rw [set_eq]
  cases hs : CritBit.seek keyBit m key with
  | none =>
    rw [CritBit.seek_eq_none h hs]
    rfl
  | some j =>
    by_cases hj : key = j
    · simp only [hj, if_true]
      exact CritBit.lookup_put (by rw [← hj, hs, hj]) x k
    · simp only [hj, if_false]
      exact CritBit.lookup_ins h hs (differ_diff hj) x k

theorem wf_del {m : Map V} (h : Wf keyBit m) (key : String) : Wf keyBit (del m key) := by
  rw [del, pop_eq h]
  exact CritBit.wf_erase h key

/-- Deleting changes the answer at its own key only. -/
theorem lookup_del {m : Map V} (h : Wf keyBit m) (key k : String) :
    CritBit.lookup keyBit (del m key) k =
      if k = key then none else CritBit.lookup keyBit m k := by
  rw [del, pop_eq h]
  exact CritBit.lookup_erase h key k

/-! ## 4. Maps built by a sequence of operations -/

/-- One of the operations that change a map. -/
inductive Op (V : Type u) where
  | set (key : String) (x : V)
  | del (key : String)
  | pop (key : String)

/-- What an operation leaves of a map. -/
def Op.apply (m : Map V) : Op V → Map V
  | set key x => Map.set m key x
  | del key => Map.del m key
  | pop key => (Map.pop m key).1

/-- What an operation does to a finite map. -/
def Op.denote (f : Finmap fun _ : String => V) : Op V → Finmap fun _ : String => V
  | set key x => f.insert key x
  | del key => f.erase key
  | pop key => f.erase key

/-- The map that a sequence of operations builds from `Map.new`. -/
def build (ops : List (Op V)) : Map V := ops.foldl Op.apply new

/-- The finite map that the same sequence builds from the empty one. -/
def buildFinmap (ops : List (Op V)) : Finmap fun _ : String => V := ops.foldl Op.denote ∅

/-- `m` is well formed and denotes the finite map `f`. -/
structure Represents (m : Map V) (f : Finmap fun _ : String => V) : Prop where
  wf : Wf keyBit m
  lookup : ∀ k, CritBit.lookup keyBit m k = f.lookup k

/-- Each operation does to the map what it does to the finite map. -/
theorem Represents.apply {m : Map V} {f : Finmap fun _ : String => V} (h : Represents m f)
    (op : Op V) : Represents (op.apply m) (op.denote f) := by
  have hdel : ∀ key, Represents (Map.del m key) (f.erase key) := fun key => by
    refine ⟨wf_del h.wf key, fun k => ?_⟩
    rw [lookup_del h.wf]
    by_cases hk : k = key
    · subst hk
      simp
    · simp [hk, h.lookup k]
  cases op with
  | set key x =>
    refine ⟨wf_set h.wf key x, fun k => ?_⟩
    rw [Op.apply, lookup_set h.wf]
    by_cases hk : k = key
    · subst hk
      simp [Op.denote]
    · simp [Op.denote, hk, h.lookup k]
  | del key => exact hdel key
  | pop key => exact hdel key

/-- So does every sequence of operations. -/
theorem represents_build (ops : List (Op V)) : Represents (build ops) (buildFinmap ops) := by
  have run : ∀ (ops : List (Op V)) (m : Map V) (f : Finmap fun _ : String => V), Represents m f →
      Represents (ops.foldl Op.apply m) (ops.foldl Op.denote f) := by
    intro ops
    induction ops with
    | nil => exact fun m f h => h
    | cons op ops ih => exact fun m f h => ih _ _ (h.apply op)
  exact run ops new ∅ ⟨trivial, fun k => by simp [new, CritBit.lookup]⟩

/-- The order on keys that `Map.keys` follows. -/
def Before (a b : String) : Prop := String.order a b = .LT

/-- Every node's position is smaller than those below it, and it separates two non-empty sides
by the bit `Map.bit` reads there. -/
def Shape : Map V → Prop
  | MTip => True
  | MLeaf _ _ => True
  | MNode pos lo hi =>
    (lo ≠ MTip ∧ hi ≠ MTip) ∧
      (∀ q ∈ Trie.positions lo ++ Trie.positions hi, pos < q) ∧
      (∀ k ∈ keys lo, (bit k pos).2 = false) ∧ (∀ k ∈ keys hi, (bit k pos).2 = true) ∧
      Shape lo ∧ Shape hi

/-- A well-formed map has the canonical shape. -/
theorem shape_of_wf {m : Map V} (h : Wf keyBit m) : Shape m := by
  induction m with
  | tip => trivial
  | leaf k v => trivial
  | node pos lo hi ihlo ihhi =>
    refine ⟨h.sides, fun q hq => ?_, fun k hk => ?_, fun k hk => ?_, ihlo h.lo, ihhi h.hi⟩
    · exact (List.mem_append.mp hq).elim (h.lt_positions.1 q) (h.lt_positions.2 q)
    · exact h.bit_lo (by simpa using hk)
    · exact h.bit_hi (by simpa using hk)

theorem pairwise_keys_of_wf {m : Map V} (h : Wf keyBit m) : (keys m).Pairwise Before := by
  rw [keys_eq]
  exact h.pairwise_keys fun j k p hd hb => (String.order_eq_lt_iff hd).mpr hb

/-- The size is that of the finite map. -/
theorem size_of_represents {m : Map V} {f : Finmap fun _ : String => V} (h : Represents m f) :
    size m = f.keys.card := by
  have hkeys : (Trie.keys m).toFinset = f.keys := by
    ext k
    rw [List.mem_toFinset, CritBit.mem_keys_iff h.wf, Finmap.mem_keys, ← Finmap.lookup_isSome,
      h.lookup k, Option.isSome_iff_exists]
  rw [size_eq, ← hkeys, List.toFinset_card_of_nodup h.wf.nodup_keys]

/-- **The bundled map is a finite map with a canonical shape.**  After any sequence of
`Map.set`, `Map.del` and `Map.pop` from `Map.new`, the searches answer as the finite map built
by the same sequence and give the map back, the lists are sorted by `String.order` and hold
exactly the entries, and the tree depends on the finite map alone. -/
theorem map_represents_finmap (ops : List (Op V)) :
    (∀ d key, get d (build ops) key = (build ops, ((buildFinmap ops).lookup key).getD d)) ∧
      (∀ key, has (build ops) key = (build ops, ((buildFinmap ops).lookup key).isSome)) ∧
      (∀ key, (pop (build ops) key).2 = (buildFinmap ops).lookup key ∧
        Represents (pop (build ops) key).1 ((buildFinmap ops).erase key)) ∧
      size (build ops) = (buildFinmap ops).keys.card ∧
      (keys (build ops)).Pairwise Before ∧
      (∀ key, key ∈ keys (build ops) ↔ key ∈ buildFinmap ops) ∧
      keys (build ops) = (toList (build ops)).map Prod.fst ∧
      (∀ key x, (key, x) ∈ toList (build ops) ↔ (buildFinmap ops).lookup key = some x) ∧
      Shape (build ops) ∧
      ∀ ops' : List (Op V), buildFinmap ops' = buildFinmap ops → build ops' = build ops := by
  have h := represents_build ops
  refine ⟨fun d key => ?_, fun key => ?_, fun key => ?_, size_of_represents h,
    pairwise_keys_of_wf h.wf, fun key => ?_, ?_, fun key x => ?_, shape_of_wf h.wf,
    fun ops' heq => ?_⟩
  · rw [get_eq, h.lookup]
  · rw [has_eq, h.lookup]
  · refine ⟨?_, h.apply (.pop key)⟩
    rw [pop_eq h.wf, h.lookup]
  · rw [keys_eq, CritBit.mem_keys_iff h.wf, ← Finmap.lookup_isSome, h.lookup,
      Option.isSome_iff_exists]
  · rw [keys_eq, toList_eq, Trie.keys]
  · rw [toList_eq, CritBit.mem_entries_iff h.wf, h.lookup]
  · have h' := represents_build ops'
    exact CritBit.eq_of_lookup_eq h'.wf h.wf fun k => by rw [h'.lookup, h.lookup, heq]

end Map

end TeamyBend.Base
