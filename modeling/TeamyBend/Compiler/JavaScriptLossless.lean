/-
# The representation of values is lossless

Within the limits of the runtime, a value that is made by `construct` is told apart from those of
the other constructors of its datatype, and `field` gives back what it was made of
(`representation_lossless`).  Numbers and characters have no tag.  The fields of an object need
different names, and the list of an `ANode` is cut in the middle.  A perfect tree has the same list
at each node and for each function of the Base; what is written into its list has one owner.
-/
import TeamyBend.Compiler.JavaScriptValues

namespace TeamyBend.Compiler.JavaScript

open Base (U32)

variable {engine : Engine}

/-! ## 1. Code units -/

theorem toNat_scalar (ch : Char) : ch.toNat < 0xD800 ∨ 0xDFFF < ch.toNat ∧ ch.toNat < 0x110000 :=
  ch.valid

theorem length_utf16 (code : Nat) : (utf16 code).length = if 0xFFFF < code then 2 else 1 := by
  unfold utf16
  split
  · rw [if_neg (by omega)]
    rfl
  · rw [if_pos (by omega)]
    rfl

/-- A character has one code unit, or a high one and a low one. -/
theorem utf16_cases (ch : Char) :
    utf16 ch.toNat = [ch.toNat] ∧ isHigh ch.toNat = false ∨
      ∃ high low, utf16 ch.toNat = [high, low] ∧ isHigh high = true ∧ isLow low = true ∧
        isHigh low = false ∧ (high - 0xD800) * 0x400 + (low - 0xDC00) + 0x10000 = ch.toNat := by
  have hscalar := toNat_scalar ch
  unfold utf16
  split
  · refine .inl ⟨rfl, ?_⟩
    unfold isHigh
    simp
    omega
  · refine .inr ⟨_, _, rfl, ?_, ?_, ?_, by omega⟩
    · unfold isHigh
      simp
      omega
    · unfold isLow
      simp
      omega
    · unfold isHigh
      simp
      omega

/-- The first code point of a text. -/
theorem codePoint_utf16 (ch : Char) (rest : List Nat) :
    codePoint (utf16 ch.toNat ++ rest) = some ch.toNat := by
  rcases utf16_cases ch with ⟨heq, hhigh⟩ | ⟨high, low, heq, hhigh, hlow, -, hcode⟩
  · rw [heq]
    cases rest with
    | nil => rfl
    | cons next rest => simp [codePoint, hhigh]
  · rw [heq, List.cons_append, List.cons_append, codePoint, if_pos ⟨hhigh, hlow⟩, hcode]

/-- A text is read back from its code units. -/
theorem units_inj {first second : List Char}
    (h : first.flatMap (fun ch => utf16 ch.toNat) = second.flatMap fun ch => utf16 ch.toNat) :
    first = second := by
  have hnil : ∀ (ch : Char) (rest : List Nat), utf16 ch.toNat ++ rest ≠ [] := by
    intro ch rest heq
    have := congrArg List.length heq
    rw [List.length_append, length_utf16] at this
    split at this <;> simp at this
  induction first generalizing second with
  | nil =>
    cases second with
    | nil => rfl
    | cons ch second => exact absurd h.symm (hnil _ _)
  | cons ch first ih =>
    cases second with
    | nil => exact absurd h (hnil _ _)
    | cons ch' second =>
      rw [List.flatMap_cons, List.flatMap_cons] at h
      have hcode := congrArg codePoint h
      rw [codePoint_utf16, codePoint_utf16] at hcode
      have hch : ch = ch' := Char.toNat_inj.1 (Option.some.inj hcode)
      subst hch
      rw [ih (List.append_cancel_left h)]

theorem units_name {first second : String} (h : units first = units second) : first = second :=
  String.toList_inj.1 (units_inj h)

/-- The bytes of a text add up. -/
theorem byteLength_utf16 (ch : Char) (rest : List Nat) :
    byteLength (utf16 ch.toNat ++ rest) = byteLength (utf16 ch.toNat) + byteLength rest := by
  rcases utf16_cases ch with ⟨heq, hhigh⟩ | ⟨high, low, heq, hhigh, hlow, -, -⟩
  · rw [heq]
    cases rest with
    | nil => rfl
    | cons next rest => simp [byteLength, hhigh]
  · rw [heq]
    simp [byteLength, hhigh, hlow]

/-- A character has as many bytes as units, or more. -/
theorem length_le_byteLength (ch : Char) :
    (utf16 ch.toNat).length ≤ byteLength (utf16 ch.toNat) := by
  rcases utf16_cases ch with ⟨heq, -⟩ | ⟨high, low, heq, hhigh, hlow, -, -⟩
  · rw [heq, byteLength, unitBytes]
    split
    · exact Nat.le_refl _
    · split <;> simp
  · rw [heq]
    simp [byteLength, hhigh, hlow]

/-- The code units of a text. -/
def encoded (text : List Char) : List Nat := text.flatMap fun ch => utf16 ch.toNat

theorem length_encoded (text : List Char) :
    (encoded text).length ≤ byteLength (encoded text) := by
  induction text with
  | nil => exact Nat.le_refl _
  | cons ch text ih =>
    have hcons : encoded (ch :: text) = utf16 ch.toNat ++ encoded text := rfl
    have := length_le_byteLength ch
    rw [hcons, List.length_append, byteLength_utf16]
    omega

/-- A character does not begin in the middle of a pair. -/
theorem not_joinedSurrogate (ch : Char) (rest : List Nat) :
    joinedSurrogate (utf16 ch.toNat) rest = false := by
  unfold joinedSurrogate
  rcases utf16_cases ch with ⟨heq, hhigh⟩ | ⟨high, low, heq, -, -, hnot, -⟩
  · rw [heq]
    simp [hhigh]
  · rw [heq]
    simp [hnot]

/-! ## 2. Words -/

/-- The bits of a number from a place on, as a word. -/
def spelled (value : Nat) : Nat → Nat → Js
  | 0, _ => wnil
  | count + 1, i => wcon (value.testBit i) (spelled value count (i + 1))

@[simp] theorem hasTag_wcon (head : Bool) (tail : Js) : (wcon head tail).hasTag "WCon" = true := by
  simp [wcon, Js.hasTag, Js.get, text]

@[simp] theorem hasTag_wnil : wnil.hasTag "WNil" = true := by
  simp [wnil, Js.hasTag, Js.get, text]

@[simp] theorem head_wcon (head : Bool) (tail : Js) : (wcon head tail).get "head" = .bool head :=
  rfl

@[simp] theorem tail_wcon (head : Bool) (tail : Js) : (wcon head tail).get "tail" = tail := rfl

/-- One bit is read. -/
theorem wordBits_wcon (count i result steps : Nat) (head : Bool) (tail : Js) :
    wordBits (count + 1) i result (wcon head tail) (steps + 1) =
      wordBits count (i + 1) (if head then result ||| 1 <<< i else result) tail steps := by
  rw [wordBits, tick, if_pos (hasTag_wcon head tail), head_wcon, tail_wcon]
  rfl

/-- **The bits of a spelled word are read back.** -/
theorem wordBits_spelled (value count i result steps : Nat) :
    ∃ out, wordBits count i result (spelled value count i) (steps + count) = .ok (out, steps) ∧
      ∀ j, out.testBit j =
        (result.testBit j || (decide (i ≤ j ∧ j < i + count) && value.testBit j)) := by
  induction count generalizing i result with
  | zero =>
    refine ⟨result, by simp [wordBits, spelled], fun j => ?_⟩
    rw [decide_eq_false (by omega), Bool.false_and, Bool.or_false]
  | succ count ih =>
    obtain ⟨out, hout, hbits⟩ :=
      ih (i + 1) (if value.testBit i then result ||| 1 <<< i else result)
    refine ⟨out, ?_, fun j => ?_⟩
    · rw [spelled, ← Nat.add_assoc, wordBits_wcon, hout]
    · have hset : (if value.testBit i then result ||| 1 <<< i else result).testBit j =
          (result.testBit j || (decide (i = j) && value.testBit j)) := by
        by_cases hij : i = j
        · subst hij
          cases hbit : value.testBit i <;> simp [Nat.one_shiftLeft]
        · split
          · simp [Nat.one_shiftLeft, hij]
          · simp [hij]
      have hrange : decide (i ≤ j ∧ j < i + (count + 1)) =
          (decide (i = j) || decide (i + 1 ≤ j ∧ j < i + 1 + count)) := by
        rw [← Bool.decide_or]
        exact decide_eq_decide.2 (by omega)
      rw [hbits, hset, hrange, Bool.and_or_distrib_right, Bool.or_assoc]

/-- The word of a number is read back. -/
theorem wordToU32_spelled {value : Nat} (hvalue : value < 2 ^ 32) (steps : Nat) :
    wordToU32 (spelled value 32 0) (steps + 32) = .ok (value, steps) := by
  obtain ⟨out, hout, hbits⟩ := wordBits_spelled value 32 0 0 steps
  have : out = value := by
    refine Nat.eq_of_testBit_eq fun j => ?_
    rw [hbits j]
    by_cases hj : j < 32
    · simp [hj]
    · have hhigh : value.testBit j = false := Nat.testBit_lt_two_pow
        (hvalue.trans_le (Nat.pow_le_pow_right (by omega) (by omega)))
      simp [hhigh]
  unfold wordToU32
  rw [hout, this]

/-- A number is spelled from its last bit on. -/
theorem bitsToWord_spelled (value i count steps : Nat) :
    bitsToWord value i (spelled value count i) (steps + i) =
      .ok (spelled value (count + i) 0, steps) := by
  induction i generalizing count with
  | zero => rfl
  | succ i ih =>
    have := ih (count + 1)
    rw [show count + (i + 1) = count + 1 + i by omega, ← this]
    rfl

theorem u32ToWord_spelled (value steps : Nat) :
    u32ToWord value (steps + 32) = .ok (spelled value 32 0, steps) := by
  have := bitsToWord_spelled value 32 0 steps
  rwa [Nat.zero_add] at this

/-! ## 3. Objects -/

theorem lookup_cons_eq (name other : String) (value : Js) (rest : List (String × Js)) :
    ((name, value) :: rest).lookup other =
      if other = name then some value else rest.lookup other := by
  rw [List.lookup_cons]
  by_cases h : other = name
  · rw [beq_iff_eq.2 h, if_pos h]
  · rw [beq_eq_false_iff_ne.2 h, if_neg h]

/-- A property that is defined is the one that is found. -/
theorem lookup_defineProperty (properties : List (String × Js)) (name other : String) (value : Js) :
    (defineProperty properties name value).lookup other =
      if other = name then some value else properties.lookup other := by
  induction properties with
  | nil => rw [defineProperty, lookup_cons_eq]
  | cons entry rest ih =>
    obtain ⟨name', value'⟩ := entry
    unfold defineProperty
    split
    · rename_i hname
      subst hname
      rw [lookup_cons_eq, lookup_cons_eq]
      split <;> rfl
    · rename_i hname
      rw [lookup_cons_eq, ih, lookup_cons_eq]
      by_cases hother : other = name'
      · subst hother
        rw [if_pos rfl, if_neg hname, if_pos rfl]
      · rw [if_neg hother, if_neg hother]

/-- A property that is not defined again is kept. -/
theorem lookup_defineAll_of_not_mem {properties : List (String × Js)} {names : List String}
    {values : List Js} {other : String} (h : other ∉ names) :
    (defineAll properties names values).lookup other = properties.lookup other := by
  induction names generalizing properties values with
  | nil => rfl
  | cons name names ih =>
    obtain ⟨hne, hrest⟩ := not_or.1 (mt List.mem_cons.2 h)
    cases values with
    | nil =>
      rw [defineAll, ih hrest, lookup_defineProperty, if_neg hne]
    | cons value values =>
      rw [defineAll, ih hrest, lookup_defineProperty, if_neg hne]

/-- The fields of an object have their values, where no name comes twice. -/
theorem lookup_defineAll {properties : List (String × Js)} {names : List String}
    {values : List Js} (hnodup : names.Nodup) {i : Nat} {name : String} {value : Js}
    (hname : names[i]? = some name) (hvalue : values[i]? = some value) :
    (defineAll properties names values).lookup name = some value := by
  induction names generalizing properties values i with
  | nil => cases hname
  | cons first names ih =>
    obtain ⟨hfirst, hrest⟩ := List.nodup_cons.1 hnodup
    cases values with
    | nil => cases hvalue
    | cons value' values =>
      rw [defineAll]
      cases i with
      | zero =>
        obtain rfl := Option.some.inj hname
        obtain rfl := Option.some.inj hvalue
        rw [lookup_defineAll_of_not_mem hfirst, lookup_defineProperty, if_pos rfl]
      | succ i => exact ih hrest hname hvalue

/-! ## 4. Datatypes -/

/-- A constructor: its tag, and the names of its live fields. -/
structure Constructor where
  tag : String
  fields : List String
  deriving DecidableEq

/-- A name begins with a letter or with an underscore. -/
def Named (name : String) : Prop :=
  ∃ ch rest, name.toList = ch :: rest ∧ (ch.isAlpha = true ∨ ch = '_')

/-- A datatype that is accepted: its constructors have different names. -/
structure Datatype where
  constructors : List Constructor
  distinct : (constructors.map Constructor.tag).Nodup
  named : ∀ c ∈ constructors, ∀ name ∈ c.fields, Named name

/-- The bundled datatypes that are not objects. -/
def Owner.constructors : Owner → List Constructor
  | .Nat => [⟨"Zero", []⟩, ⟨"Succ", ["pred"]⟩]
  | .Bool => [⟨"False", []⟩, ⟨"True", []⟩]
  | .U32 => [⟨"U32", ["data"]⟩]
  | .F32 => [⟨"F32", ["data"]⟩]
  | .Char => [⟨"Chr", ["code"]⟩]
  | .String => [⟨"SNil", []⟩, ⟨"SCon", ["head", "tail"]⟩]
  | .Array => [⟨"ALeaf", ["value"]⟩, ⟨"ANode", ["xs", "ys"]⟩]
  | .ordinary => []

/-- Numbers and characters have no tag. -/
def Owner.tagged (owner : Owner) : Prop := owner ≠ .U32 ∧ owner ≠ .F32 ∧ owner ≠ .Char

/-- An array, from the tree that it stands for. -/
def arrayOf (a : Base.Array Js) : Js := .array a.toList

/-- The second tree has as many leaves as the first, or one more. -/
def Halves (xs ys : Base.Array Js) : Prop :=
  xs.toList.length ≤ ys.toList.length ∧ ys.toList.length ≤ xs.toList.length + 1

/-- The live values that a constructor is applied to, within the limits of the runtime. -/
inductive Applied (engine : Engine) : Owner → List Constructor → Constructor → List Js → Prop
  | zero : Applied engine .Nat Owner.Nat.constructors ⟨"Zero", []⟩ []
  | succ {n : Nat} : n + 1 < 2 ^ 48 →
    Applied engine .Nat Owner.Nat.constructors ⟨"Succ", ["pred"]⟩ [.bigint n]
  | false : Applied engine .Bool Owner.Bool.constructors ⟨"False", []⟩ []
  | true : Applied engine .Bool Owner.Bool.constructors ⟨"True", []⟩ []
  | u32 {value : Nat} : value < 2 ^ 32 →
    Applied engine .U32 Owner.U32.constructors ⟨"U32", ["data"]⟩ [spelled value 32 0]
  | f32 {value : Nat} : value < 2 ^ 32 →
    engine.store (engine.load (.ofNat value)) = .ofNat value →
    Applied engine .F32 Owner.F32.constructors ⟨"F32", ["data"]⟩ [spelled value 32 0]
  | chr (ch : Char) :
    Applied engine .Char Owner.Char.constructors ⟨"Chr", ["code"]⟩ [.number ch.toNat]
  | snil : Applied engine .String Owner.String.constructors ⟨"SNil", []⟩ []
  | scon (ch : Char) (tail : List Char) : byteLength (encoded (ch :: tail)) ≤ maxBytes →
    Applied engine .String Owner.String.constructors ⟨"SCon", ["head", "tail"]⟩
      [.string (encoded [ch]), .string (encoded tail)]
  | leaf (value : Js) :
    Applied engine .Array Owner.Array.constructors ⟨"ALeaf", ["value"]⟩ [value]
  | node {xs ys : Base.Array Js} : Halves xs ys →
    xs.toList.length + ys.toList.length ≤ maxArray →
    Applied engine .Array Owner.Array.constructors ⟨"ANode", ["xs", "ys"]⟩ [arrayOf xs, arrayOf ys]
  | ordinary (datatype : Datatype) {c : Constructor} {values : List Js} :
    c ∈ datatype.constructors → c.fields.Nodup → values.length = c.fields.length →
    Applied engine .ordinary datatype.constructors c values

/-- A value is told apart from those of the other constructors, and gives back its fields. -/
def Lossless (engine : Engine) (owner : Owner) (constructors : List Constructor) (c : Constructor)
    (values : List Js) : Prop :=
  ∀ steps, 33 ≤ steps → ∃ made rest,
    construct engine owner c.tag c.fields values steps = .ok (made, rest) ∧
    (owner.tagged → ∀ other ∈ constructors,
      «matches» owner other.tag made = decide (other.tag = c.tag)) ∧
    ∀ i value, values[i]? = some value → ∀ steps, 32 ≤ steps → ∃ rest,
      field engine owner c.tag made i (c.fields.getD i "") steps = .ok (value, rest)

/-! ## 5. Each constructor -/

/-- A number is a zero or a successor. -/
theorem matches_nat (tag : String) (n : Nat) :
    «matches» .Nat tag (.bigint n) = if tag = "Zero" then decide (n = 0) else decide (n ≠ 0) := by
  have heq : decide ((n : Int) = 0) = decide (n = 0) := decide_eq_decide.2 Int.natCast_eq_zero
  have hne : decide ((n : Int) ≠ 0) = decide (n ≠ 0) :=
    decide_eq_decide.2 (not_congr Int.natCast_eq_zero)
  rw [← heq, ← hne]
  rfl

theorem matches_string (tag : String) (units : List Nat) :
    «matches» .String tag (.string units) =
      if tag = "SNil" then decide (units = []) else decide (units ≠ []) := rfl

theorem matches_array (tag : String) (elements : List Js) :
    «matches» .Array tag (.array elements) =
      if tag = "ALeaf" then decide (elements.length = 1) else decide (elements.length ≠ 1) := rfl

theorem matches_ordinary (tag : String) (value : Js) :
    «matches» .ordinary tag value = value.hasTag tag := rfl

theorem construct_u32 {word : Js} {value steps rest : Nat} (tag : String) (fields : List String)
    (h : wordToU32 word steps = .ok (value, rest)) :
    construct engine .U32 tag fields [word] (steps + 1) = .ok (.number value, rest) := by
  simp [construct, tick, h]

theorem construct_f32 {word : Js} {value steps rest : Nat} (tag : String) (fields : List String)
    (h : wordToU32 word steps = .ok (value, rest)) :
    construct engine .F32 tag fields [word] (steps + 1) =
      .ok (.float (engine.load (.ofNat value)), rest) := by
  simp [construct, tick, h]

theorem field_ordinary (tag name : String) (value : Js) (i steps : Nat) :
    field engine .ordinary tag value i name steps = .ok (value.get name, steps) := rfl

theorem field_f32 (tag name : String) (bits : UInt32) (i steps : Nat) :
    field engine .F32 tag (.float bits) i name steps =
      u32ToWord (engine.store bits).toNat steps := rfl

theorem field_chr (tag name : String) (units : List Nat) (i steps : Nat) :
    field engine .Char tag (.string units) i name steps =
      .ok ((codePoint units).elim .undefined Js.number, steps) := rfl

theorem field_string (tag name : String) (units : List Nat) (i steps : Nat) :
    field engine .String tag (.string units) i name steps =
      .ok (.string (if i = 0 then units.take (if 0xFFFF < (codePoint units).getD 0 then 2 else 1)
        else units.drop (if 0xFFFF < (codePoint units).getD 0 then 2 else 1)), steps) := rfl

theorem lossless_zero : Lossless engine .Nat Owner.Nat.constructors ⟨"Zero", []⟩ [] := by
  intro steps hsteps
  obtain ⟨rest, rfl⟩ := Nat.exists_eq_add_of_le' hsteps
  refine ⟨.bigint (0 : Nat), rest + 32, rfl, fun _ => ?_, ?_⟩
  · intro other hother
    rw [matches_nat]
    simp only [Owner.constructors, List.mem_cons, List.not_mem_nil, or_false] at hother
    rcases hother with rfl | rfl <;> rfl
  · intro i value hvalue
    cases hvalue

/-- A successor is the number after it. -/
theorem lossless_succ {n : Nat} (hn : n + 1 < 2 ^ 48) :
    Lossless engine .Nat Owner.Nat.constructors ⟨"Succ", ["pred"]⟩ [.bigint n] := by
  intro steps hsteps
  obtain ⟨rest, rfl⟩ := Nat.exists_eq_add_of_le' hsteps
  refine ⟨.bigint (n + 1 : Nat), rest + 32, ?_, fun _ => ?_, ?_⟩
  · have hle : ¬(0xFFFFFFFFFFFF < (n : Int) + 1) := by omega
    exact if_neg hle
  · intro other hother
    rw [matches_nat]
    simp only [Owner.constructors, List.mem_cons, List.not_mem_nil, or_false] at hother
    rcases hother with rfl | rfl
    · simp
    · simp
  · intro i value hvalue steps hsteps
    cases i with
    | zero =>
      obtain rfl := Option.some.inj hvalue
      exact ⟨steps, by simp [field]⟩
    | succ i => cases hvalue

theorem lossless_bool (tag : String) (htag : tag = "False" ∨ tag = "True") :
    Lossless engine .Bool Owner.Bool.constructors ⟨tag, []⟩ [] := by
  intro steps hsteps
  obtain ⟨rest, rfl⟩ := Nat.exists_eq_add_of_le' hsteps
  refine ⟨.bool (tag = "True"), rest + 32, rfl, fun _ => ?_, ?_⟩
  · intro other hother
    simp only [Owner.constructors, List.mem_cons, List.not_mem_nil, or_false] at hother
    rcases hother with rfl | rfl <;> rcases htag with rfl | rfl <;> rfl
  · intro i value hvalue
    cases hvalue

/-- A word is spelled out and read back. -/
theorem lossless_u32 {value : Nat} (hvalue : value < 2 ^ 32) :
    Lossless engine .U32 Owner.U32.constructors ⟨"U32", ["data"]⟩ [spelled value 32 0] := by
  intro steps hsteps
  obtain ⟨rest, rfl⟩ := Nat.exists_eq_add_of_le' hsteps
  refine ⟨.number value, rest, ?_, fun htagged => absurd rfl htagged.1, ?_⟩
  · exact construct_u32 _ _ (wordToU32_spelled hvalue rest)
  · intro i word hword steps hsteps
    obtain ⟨rest, rfl⟩ := Nat.exists_eq_add_of_le' hsteps
    cases i with
    | zero =>
      obtain rfl := Option.some.inj hword
      exact ⟨rest, u32ToWord_spelled value rest⟩
    | succ i => cases hword

/-- A float is, where the engine keeps its bits. -/
theorem lossless_f32 {value : Nat} (hvalue : value < 2 ^ 32)
    (hengine : engine.store (engine.load (.ofNat value)) = .ofNat value) :
    Lossless engine .F32 Owner.F32.constructors ⟨"F32", ["data"]⟩ [spelled value 32 0] := by
  intro steps hsteps
  obtain ⟨rest, rfl⟩ := Nat.exists_eq_add_of_le' hsteps
  refine ⟨.float (engine.load (.ofNat value)), rest, ?_, fun htagged => absurd rfl htagged.2.1, ?_⟩
  · exact construct_f32 _ _ (wordToU32_spelled hvalue rest)
  · intro i word hword steps hsteps
    obtain ⟨rest, rfl⟩ := Nat.exists_eq_add_of_le' hsteps
    cases i with
    | zero =>
      obtain rfl := Option.some.inj hword
      refine ⟨rest, ?_⟩
      rw [field_f32, hengine, UInt32.toNat_ofNat_of_lt' hvalue]
      exact u32ToWord_spelled value rest
    | succ i => cases hword

/-- A character is a text of its own. -/
theorem lossless_chr (ch : Char) :
    Lossless engine .Char Owner.Char.constructors ⟨"Chr", ["code"]⟩ [.number ch.toNat] := by
  intro steps hsteps
  obtain ⟨rest, rfl⟩ := Nat.exists_eq_add_of_le' hsteps
  refine ⟨.string (utf16 ch.toNat), rest + 32, ?_, fun htagged => absurd rfl htagged.2.2, ?_⟩
  · have hscalar := toNat_scalar ch
    have hvalid : ¬(0x10FFFF < ch.toNat ∨ (0xD800 ≤ ch.toNat ∧ ch.toNat ≤ 0xDFFF)) := by omega
    exact if_neg hvalid
  · intro i value hvalue steps hsteps
    cases i with
    | zero =>
      obtain rfl := Option.some.inj hvalue
      refine ⟨steps, ?_⟩
      have hcode := codePoint_utf16 ch []
      rw [List.append_nil] at hcode
      rw [field_chr, hcode]
      rfl
    | succ i => cases hvalue

theorem lossless_snil : Lossless engine .String Owner.String.constructors ⟨"SNil", []⟩ [] := by
  intro steps hsteps
  obtain ⟨rest, rfl⟩ := Nat.exists_eq_add_of_le' hsteps
  refine ⟨.string [], rest + 32, rfl, fun _ => ?_, ?_⟩
  · intro other hother
    rw [matches_string]
    simp only [Owner.constructors, List.mem_cons, List.not_mem_nil, or_false] at hother
    rcases hother with rfl | rfl <;> rfl
  · intro i value hvalue
    cases hvalue

theorem encoded_cons (ch : Char) (tail : List Char) :
    encoded (ch :: tail) = utf16 ch.toNat ++ encoded tail := rfl

theorem encoded_singleton (ch : Char) : encoded [ch] = utf16 ch.toNat := List.append_nil _

/-- A character is put before a text. -/
theorem appendText_encoded {ch : Char} {tail : List Char}
    (h : byteLength (encoded (ch :: tail)) ≤ maxBytes) (steps : Nat) :
    appendText (encoded [ch]) (encoded tail) steps =
      .ok (.string (encoded (ch :: tail)), steps) := by
  have hlength := length_encoded (ch :: tail)
  have hbytes := byteLength_utf16 ch (encoded tail)
  rw [encoded_cons] at h hlength
  rw [List.length_append] at hlength
  unfold appendText
  rw [encoded_singleton, not_joinedSurrogate, if_neg (by omega), if_neg, if_neg (by omega)]
  · rfl
  · simp
    omega

/-- A text is its first character and the others. -/
theorem lossless_scon {ch : Char} {tail : List Char}
    (h : byteLength (encoded (ch :: tail)) ≤ maxBytes) :
    Lossless engine .String Owner.String.constructors ⟨"SCon", ["head", "tail"]⟩
      [.string (encoded [ch]), .string (encoded tail)] := by
  intro steps hsteps
  obtain ⟨rest, rfl⟩ := Nat.exists_eq_add_of_le' hsteps
  have hcode := codePoint_utf16 ch (encoded tail)
  have hne : utf16 ch.toNat ++ encoded tail ≠ [] := by
    intro heq
    rw [heq] at hcode
    cases hcode
  refine ⟨.string (encoded (ch :: tail)), rest + 32, ?_, fun _ => ?_, ?_⟩
  · have happend := appendText_encoded h (rest + 32)
    exact happend
  · intro other hother
    rw [matches_string, encoded_cons]
    simp only [Owner.constructors, List.mem_cons, List.not_mem_nil, or_false] at hother
    rcases hother with rfl | rfl
    · rw [if_pos rfl, decide_eq_false hne]
      rfl
    · rw [if_neg (by decide), decide_eq_true hne]
      rfl
  · intro i value hvalue steps hsteps
    have hwidth : (if 0xFFFF < (codePoint (encoded (ch :: tail))).getD 0 then 2 else 1) =
        (utf16 ch.toNat).length := by
      rw [encoded_cons, hcode, length_utf16]
      rfl
    refine ⟨steps, ?_⟩
    rw [field_string, hwidth, encoded_cons]
    match i, hvalue with
    | 0, hvalue =>
      obtain rfl := Option.some.inj hvalue
      rw [if_pos rfl, List.take_left, encoded_singleton]
    | 1, hvalue =>
      obtain rfl := Option.some.inj hvalue
      rw [if_neg (by decide), List.drop_left]

/-- An array of one element. -/
theorem lossless_leaf (value : Js) :
    Lossless engine .Array Owner.Array.constructors ⟨"ALeaf", ["value"]⟩ [value] := by
  intro steps hsteps
  obtain ⟨rest, rfl⟩ := Nat.exists_eq_add_of_le' hsteps
  refine ⟨.array [value], rest + 32, rfl, fun _ => ?_, ?_⟩
  · intro other hother
    simp only [Owner.constructors, List.mem_cons, List.not_mem_nil, or_false] at hother
    rcases hother with rfl | rfl <;> rfl
  · intro i value' hvalue steps hsteps
    cases i with
    | zero =>
      obtain rfl := Option.some.inj hvalue
      exact ⟨steps, rfl⟩
    | succ i => cases hvalue

theorem field_node (elements : List Js) (name : String) (i steps : Nat) :
    field engine .Array "ANode" (.array elements) i name steps =
      .ok (if i = 0 then .array (elements.take (elements.length / 2))
        else .array (elements.drop (elements.length / 2)), steps) := rfl

/-- **A node of two halves is their concatenation, and is split in the middle.** -/
theorem lossless_node {xs ys : Base.Array Js} (hhalves : Halves xs ys)
    (hmax : xs.toList.length + ys.toList.length ≤ maxArray) :
    Lossless engine .Array Owner.Array.constructors ⟨"ANode", ["xs", "ys"]⟩
      [arrayOf xs, arrayOf ys] := by
  intro steps hsteps
  obtain ⟨rest, rfl⟩ := Nat.exists_eq_add_of_le' hsteps
  obtain ⟨hle, hge⟩ := hhalves
  have hpos := xs.toList_length_pos
  have hlength : (xs.toList ++ ys.toList).length = xs.toList.length + ys.toList.length :=
    List.length_append
  refine ⟨.array (xs.toList ++ ys.toList), rest + 32, ?_, fun _ => ?_, ?_⟩
  · exact if_neg (Nat.not_lt.2 hmax)
  · intro other hother
    have hne : (xs.toList ++ ys.toList).length ≠ 1 := by omega
    rw [matches_array]
    simp only [Owner.constructors, List.mem_cons, List.not_mem_nil, or_false] at hother
    rcases hother with rfl | rfl
    · rw [if_pos rfl, decide_eq_false hne]
      rfl
    · rw [if_neg (by decide), decide_eq_true hne]
      rfl
  · intro i value hvalue steps hsteps
    have hhalf : (xs.toList ++ ys.toList).length / 2 = xs.toList.length := by omega
    refine ⟨steps, ?_⟩
    rw [field_node, hhalf]
    match i, hvalue with
    | 0, hvalue =>
      obtain rfl := Option.some.inj hvalue
      rw [if_pos rfl, List.take_left]
      rfl
    | 1, hvalue =>
      obtain rfl := Option.some.inj hvalue
      rw [if_neg (by decide), List.drop_left]
      rfl

/-- A name of a field is no tag. -/
theorem named_ne_tag {name : String} (h : Named name) : name ≠ "$" := by
  obtain ⟨ch, rest, hlist, hch⟩ := h
  rintro rfl
  have hdollar : "$".toList = ['$'] := rfl
  rw [hdollar] at hlist
  obtain ⟨rfl, -⟩ := List.cons.inj hlist
  exact absurd hch (by decide)

/-- Every other datatype is an object with a property for each field. -/
theorem lossless_ordinary (datatype : Datatype) {c : Constructor} {values : List Js}
    (hc : c ∈ datatype.constructors) (hfields : c.fields.Nodup)
    (hlength : values.length = c.fields.length) :
    Lossless engine .ordinary datatype.constructors c values := by
  intro steps hsteps
  obtain ⟨rest, rfl⟩ := Nat.exists_eq_add_of_le' hsteps
  refine ⟨.object (defineAll [("$", text c.tag)] c.fields values), rest + 32,
    rfl, fun _ => ?_, ?_⟩
  · intro other hother
    have hdollar : "$" ∉ c.fields := fun hmem => named_ne_tag (datatype.named c hc _ hmem) rfl
    have hget : (Js.object (defineAll [("$", text c.tag)] c.fields values)).get "$" =
        .string (units c.tag) := by
      rw [Js.get, lookup_defineAll_of_not_mem hdollar]
      rfl
    have hmatches : «matches» .ordinary other.tag
        (.object (defineAll [("$", text c.tag)] c.fields values)) =
          decide (units c.tag = units other.tag) := by
      rw [matches_ordinary, Js.hasTag, hget]
    rw [hmatches]
    exact decide_eq_decide.2 ⟨fun h => (units_name h).symm, fun h => by rw [h]⟩
  · intro i value hvalue steps hsteps
    obtain ⟨hi, -⟩ := List.getElem?_eq_some_iff.1 hvalue
    have hname : c.fields[i]? = some (c.fields.getD i "") := by
      rw [List.getD_eq_getElem?_getD, List.getElem?_eq_getElem (hlength ▸ hi)]
      rfl
    have hlookup : (defineAll [("$", text c.tag)] c.fields values).lookup (c.fields.getD i "") =
        some value := lookup_defineAll hfields hname hvalue
    refine ⟨steps, ?_⟩
    rw [field_ordinary, Js.get, hlookup]
    rfl

/-- What a constructor makes is told apart and gives back what it was made of. -/
theorem Applied.lossless {owner : Owner} {constructors : List Constructor} {c : Constructor}
    {values : List Js} (h : Applied engine owner constructors c values) :
    Lossless engine owner constructors c values := by
  cases h with
  | zero => exact lossless_zero
  | succ hn => exact lossless_succ hn
  | false => exact lossless_bool "False" (.inl rfl)
  | true => exact lossless_bool "True" (.inr rfl)
  | u32 hvalue => exact lossless_u32 hvalue
  | f32 hvalue hengine => exact lossless_f32 hvalue hengine
  | chr ch => exact lossless_chr ch
  | snil => exact lossless_snil
  | scon ch tail h => exact lossless_scon h
  | leaf value => exact lossless_leaf value
  | node hhalves hmax => exact lossless_node hhalves hmax
  | ordinary datatype hc hfields hlength => exact lossless_ordinary datatype hc hfields hlength

/-! ## 6. Arrays -/

/-- A tree that gives back its two branches at every node. -/
inductive Balanced : Base.Array Js → Prop
  | leaf (value : Js) : Balanced (.ALeaf value)
  | node {xs ys : Base.Array Js} : Balanced xs → Balanced ys → Halves xs ys →
    Balanced (.ANode xs ys)

open Base Array in
/-- A balanced array with a power of two of elements is perfect. -/
theorem Balanced.perfect {d : Nat} {a : Base.Array Js} (h : Balanced a)
    (hlength : a.toList.length = 2 ^ d) : Perfect d a := by
  induction h generalizing d with
  | leaf value =>
    cases d with
    | zero => exact .leaf value
    | succ d =>
      have := Nat.one_lt_two_pow (n := d + 1) (by omega)
      rw [toList_leaf, List.length_singleton] at hlength
      omega
  | @node xs ys hxs hys hhalves ihx ihy =>
    obtain ⟨hle, hge⟩ := hhalves
    have hpos := xs.toList_length_pos
    rw [toList_node, List.length_append] at hlength
    cases d with
    | zero => omega
    | succ d =>
      rw [Nat.pow_succ] at hlength
      exact .node (ihx (by omega)) (ihy (by omega))

open Base Array in
theorem balanced_perfect {d : Nat} {a : Base.Array Js} (h : Perfect d a) : Balanced a := by
  induction h with
  | leaf value => exact .leaf value
  | node hx hy ihx ihy =>
    have hlength := hx.length.trans hy.length.symm
    exact .node ihx ihy ⟨by omega, by omega⟩

/-- The functions on the list of a tree are those of the Base. -/
structure Operates (a : Base.Array Js) (i : U32) (v : Js) (steps : Nat) : Prop where
  size : native .size [arrayOf a] (steps + 1) =
    .ok (tuple (arrayOf a.size.1) (.number a.size.2.toNat), steps)
  get : native .get [arrayOf a, .number i.toNat] (steps + 1) =
    .ok (tuple (arrayOf (a.get i).1) (a.get i).2, steps)
  set : native .set [arrayOf a, .number i.toNat, v] (steps + 1) =
    .ok (arrayOf (a.set i v), steps)
  swap : native .swap [arrayOf a, .number i.toNat, v] (steps + 1) =
    .ok (tuple (arrayOf (a.swap i v).1) (a.swap i v).2, steps)

/-- Within the limit of the runtime a depth fits in a word. -/
theorem depth_lt {d : Nat} (hmax : 2 ^ d ≤ maxArray) : d < 32 := by
  by_contra hge
  have := Nat.pow_le_pow_right (show 0 < 2 by omega) (Nat.le_of_not_lt hge)
  unfold maxArray at hmax
  omega

open Base Array in
/-- A perfect array is read and written as its list is. -/
theorem operates_perfect {d : Nat} {a : Base.Array Js} (h : Perfect d a)
    (hmax : 2 ^ d ≤ maxArray) (i : U32) (v : Js) (steps : Nat) : Operates a i v steps := by
  have hd := depth_lt hmax
  obtain ⟨x, hx, hget⟩ := get_perfect h hd i
  obtain ⟨-, hswap, hold⟩ := swap_perfect h hd i v
  have hlength := h.length
  have hsize := (mask_perfect h hd i).1
  have hindex : a.toList.getD (i.toNat % a.toList.length) .undefined = x := by
    rw [List.getD_eq_getElem?_getD, hlength, hx]
    rfl
  have holdx : (a.swap i v).2 = x := Option.some.inj (hold.symm.trans hx)
  have hset : a.toList.set (i.toNat % a.toList.length) v = (a.swap i v).1.toList := by
    rw [hlength, hswap]
  refine ⟨?_, ?_, ?_, ?_⟩
  · rw [size_fst, hsize, ← hlength]
    rfl
  · rw [hget, ← hindex]
    rfl
  · unfold Base.Array.set arrayOf
    rw [← hset]
    rfl
  · unfold arrayOf
    rw [holdx, ← hindex, ← hset]
    rfl

/-! ## 7. The representation -/

/-- **The representation of values is lossless.** -/
theorem representation_lossless (engine : Engine) :
    (∀ owner constructors c values, Applied engine owner constructors c values →
      Lossless engine owner constructors c values) ∧
    ∀ d (a : Base.Array Js), a.Perfect d → 2 ^ d ≤ maxArray →
      ∀ i v steps, Operates a i v steps :=
  ⟨fun _ _ _ _ h => h.lossless, fun _ _ h hmax => operates_perfect h hmax⟩

/-- An engine that keeps the bits of every number. -/
def keeping : Engine := ⟨id, id⟩

/-- An engine that makes a quiet number of one that signals. -/
def quieting : Engine :=
  ⟨id, fun bits => if 0x7F800000 < bits &&& 0x7FFFFFFF then bits ||| 0x400000 else bits⟩

/-- A pair of leaves is given back, and its fifth element is the second. -/
theorem representation_lossless_pair :
    Lossless keeping .Array Owner.Array.constructors ⟨"ANode", ["xs", "ys"]⟩
      [arrayOf (.ALeaf (.number 1)), arrayOf (.ALeaf (.number 2))] ∧
    Operates (.ANode (.ALeaf (.number 1)) (.ALeaf (.number 2))) (U32.literal 5) (.number 3) 0 ∧
    native .swap [.array [.number 1, .number 2], .number 5, .number 3] 1 =
      .ok (tuple (.array [.number 1, .number 3]) (.number 2), 0) := by
  have hpair : Operates (.ANode (.ALeaf (.number 1)) (.ALeaf (.number 2))) (U32.literal 5)
      (.number 3) 0 :=
    (representation_lossless keeping).2 1 _ (.node (.leaf _) (.leaf _)) (by decide) _ _ _
  exact ⟨(representation_lossless keeping).1 _ _ _ _ (.node ⟨by decide, by decide⟩ (by decide)),
    hpair, hpair.swap⟩

/-- A number has no tag, trees of two depths and fields of one name are not given back, and an
engine may change the bits of a number that signals. -/
theorem representation_lossy :
    (construct keeping .U32 "U32" ["data"] [spelled 7 32 0] 33 = .ok (.number 7, 0) ∧
      «matches» .U32 "U32" (.number 7) = false) ∧
    (construct keeping .Array "ANode" ["xs", "ys"]
        [.array [.number 1, .number 2], .array [.number 3]] 1 =
          .ok (.array [.number 1, .number 2, .number 3], 0) ∧
      field keeping .Array "ANode" (.array [.number 1, .number 2, .number 3]) 0 "xs" 0 =
        .ok (.array [.number 1], 0)) ∧
    (construct keeping .ordinary "Pair" ["x", "x"] [.number 1, .number 2] 1 =
        .ok (.object [("$", text "Pair"), ("x", .number 2)], 0) ∧
      field keeping .ordinary "Pair" (.object [("$", text "Pair"), ("x", .number 2)]) 0 "x" 0 =
        .ok (.number 2, 0)) ∧
    (construct quieting .F32 "F32" ["data"] [spelled 0x7F800001 32 0] 33 =
        .ok (.float 0x7F800001, 0) ∧
      field quieting .F32 "F32" (.float 0x7F800001) 0 "data" 32 =
        .ok (spelled 0x7FC00001 32 0, 0)) := by
  refine ⟨⟨?_, rfl⟩, ⟨rfl, rfl⟩, ⟨rfl, rfl⟩, ?_, ?_⟩
  · have hword := wordToU32_spelled (show 7 < 2 ^ 32 by omega) 0
    simp [construct, tick, hword]
  · have hword := wordToU32_spelled (show 0x7F800001 < 2 ^ 32 by omega) 0
    simp [construct, tick, hword, quieting]
  · exact u32ToWord_spelled 0x7FC00001 0

end TeamyBend.Compiler.JavaScript
