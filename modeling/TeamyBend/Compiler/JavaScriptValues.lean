/-
# The values of compiled JavaScript

The runtime gives the bundled datatypes values of JavaScript: a `Nat` is a big integer, a `Bool` a
boolean, a `U32` a number, a `Char` and a `String` are strings, and an `Array` is the list of its
elements.  A value of another datatype is an object that has the tag of its constructor and its
fields by name.

A string is the list of its code units.  A number of single precision is given by its bits, and
what an engine does with the bits of a number that it reads or stores is given.
-/
import TeamyBend.Base.Array

namespace TeamyBend.Compiler.JavaScript

open Base (U32)

/-! ## 1. Values -/

inductive Js where
  | undefined
  | bool (value : Bool)
  | number (value : Nat)
  | float (bits : UInt32)
  | bigint (value : Int)
  | string (units : List Nat)
  | array (elements : List Js)
  | object (properties : List (String × Js))

/-- How the bits of a number of single precision are read into a number and stored from it. -/
structure Engine where
  load : UInt32 → UInt32
  store : UInt32 → UInt32

/-- Why a call throws. -/
inductive Failure where
  | budget (message : String)
  | language (message : String)
  | error (message : String)
  deriving DecidableEq

/-- A call, with the steps that are left before it and after it. -/
abbrev Call (α : Type) := Nat → Except Failure (α × Nat)

def maxArray : Nat := 131072

def maxBytes : Nat := 8388608

def tick {α : Type} (next : Call α) : Call α
  | 0 => .error (.budget "executable JavaScript step budget exhausted")
  | steps + 1 => next steps

/-- The code units of a code point. -/
def utf16 (code : Nat) : List Nat :=
  if code < 0x10000 then [code]
  else [0xD800 + (code - 0x10000) / 0x400, 0xDC00 + (code - 0x10000) % 0x400]

def isHigh (unit : Nat) : Bool := 0xD800 ≤ unit ∧ unit ≤ 0xDBFF

def isLow (unit : Nat) : Bool := 0xDC00 ≤ unit ∧ unit ≤ 0xDFFF

/-- `codePointAt(0)` -/
def codePoint : List Nat → Option Nat
  | [] => none
  | [unit] => some unit
  | unit :: next :: _ =>
    if isHigh unit ∧ isLow next then some ((unit - 0xD800) * 0x400 + (next - 0xDC00) + 0x10000)
    else some unit

/-- The bytes of a code unit that is no part of a pair. -/
def unitBytes (unit : Nat) : Nat := if unit < 0x80 then 1 else if unit < 0x800 then 2 else 3

/-- `Buffer.byteLength(text, 'utf8')` -/
def byteLength : List Nat → Nat
  | [] => 0
  | [unit] => unitBytes unit
  | unit :: next :: rest =>
    if isHigh unit ∧ isLow next then 4 + byteLength rest
    else unitBytes unit + byteLength (next :: rest)

/-- The code units of a name. -/
def units (name : String) : List Nat := name.toList.flatMap fun ch => utf16 ch.toNat

def text (name : String) : Js := .string (units name)

/-- `!!value` -/
def truthy : Js → Bool
  | .undefined => false
  | .bool value => value
  | .number value => value ≠ 0
  | .float bits => ¬(bits &&& 0x7FFFFFFF = 0 ∨ 0x7F800000 < bits &&& 0x7FFFFFFF)
  | .bigint value => value ≠ 0
  | .string units => units ≠ []
  | .array _ => true
  | .object _ => true

/-! ## 2. Objects -/

/-- `value[name]` -/
def Js.get (value : Js) (name : String) : Js :=
  match value with
  | .object properties => (properties.lookup name).getD .undefined
  | _ => .undefined

/-- `value?.$ === tag` -/
def Js.hasTag (value : Js) (tag : String) : Bool :=
  match value.get "$" with
  | .string found => found = units tag
  | _ => false

/-- `Object.defineProperty` of an enumerable, writable and configurable property. -/
def defineProperty : List (String × Js) → String → Js → List (String × Js)
  | [], name, value => [(name, value)]
  | (name', value') :: rest, name, value =>
    if name' = name then (name', value) :: rest
    else (name', value') :: defineProperty rest name value

def defineAll : List (String × Js) → List String → List Js → List (String × Js)
  | properties, name :: names, value :: values =>
    defineAll (defineProperty properties name value) names values
  | properties, name :: names, [] =>
    defineAll (defineProperty properties name .undefined) names []
  | properties, [], _ => properties

def tuple (fst snd : Js) : Js := .object [("$", text "Tuple"), ("fst", fst), ("snd", snd)]

/-! ## 3. Words and characters -/

/-- The bits of a word from a place on; `count` of them are left. -/
def wordBits : Nat → Nat → Nat → Js → Call Nat
  | 0, _, result, word => fun steps =>
    if word.hasTag "WNil" then .ok (result, steps)
    else .error (.error "expected exactly 32 Word bits")
  | count + 1, i, result, word => tick fun steps =>
    if word.hasTag "WCon" then
      wordBits count (i + 1) (if truthy (word.get "head") then result ||| 1 <<< i else result)
        (word.get "tail") steps
    else .error (.error "expected a 32-bit Word")

def wordToU32 (word : Js) : Call Nat := wordBits 32 0 0 word

/-- A bit is put before a word. -/
def wcon (head : Bool) (tail : Js) : Js :=
  .object [("$", text "WCon"), ("head", .bool head), ("tail", tail)]

def wnil : Js := .object [("$", text "WNil")]

/-- The bits of a number below a place are put before a word. -/
def bitsToWord (value : Nat) : Nat → Js → Call Js
  | 0, result => fun steps => .ok (result, steps)
  | i + 1, result => tick (bitsToWord value i (wcon (value.testBit i) result))

def u32ToWord (value : Nat) : Call Js := bitsToWord value 32 wnil

def charNew (code : Nat) : Call Js := fun steps =>
  if 0x10FFFF < code ∨ (0xD800 ≤ code ∧ code ≤ 0xDFFF) then
    .error (.language (toString code ++ " is not a Unicode scalar value"))
  else .ok (.string (utf16 code), steps)

def nat (value : Int) : Call Js := fun steps =>
  if 0xFFFFFFFFFFFF < value then
    .error (.language "a Nat past the largest immediate 2^48-1")
  else .ok (.bigint value, steps)

/-- A low unit after a high one. -/
def joinedSurrogate (left right : List Nat) : Bool :=
  (left.getLast?.map isHigh).getD false && (right.head?.map isLow).getD false

def appendText (left right : List Nat) : Call Js := fun steps =>
  if maxBytes < left.length + right.length then
    .error (.budget "executable JavaScript string byte budget exhausted")
  else if maxBytes <
      byteLength left + byteLength right - (if joinedSurrogate left right then 2 else 0) then
    .error (.budget "executable JavaScript string byte budget exhausted")
  else if maxBytes < byteLength (left ++ right) then
    .error (.budget "executable JavaScript string byte budget exhausted")
  else .ok (.string (left ++ right), steps)

/-! ## 4. Constructors -/

/-- The datatype of a value, as the generated code names it; `ordinary` is the empty name. -/
inductive Owner where
  | Nat | Bool | U32 | F32 | Char | String | Array | ordinary
  deriving DecidableEq

section Constructors

variable (engine : Engine)

/-- What JavaScript throws where an operation has an operand of another kind. -/
def typeError {α : Type} : Call α := fun _ => .error (.error "TypeError")

def construct (owner : Owner) (tag : String) (fields : List String) (values : List Js) : Call Js :=
  tick <|
    match owner, values with
    | .Nat, values =>
      if tag = "Zero" then fun steps => .ok (.bigint 0, steps)
      else
        match values with
        | .bigint pred :: _ => nat (pred + 1)
        | _ => typeError
    | .Bool, _ => fun steps => .ok (.bool (tag = "True"), steps)
    | .U32, word :: _ => fun steps =>
      match wordToU32 word steps with
      | .error failure => .error failure
      | .ok (value, steps) => .ok (.number value, steps)
    | .F32, word :: _ => fun steps =>
      match wordToU32 word steps with
      | .error failure => .error failure
      | .ok (value, steps) => .ok (.float (engine.load (.ofNat value)), steps)
    | .Char, .number code :: _ => charNew code
    | .String, values =>
      if tag = "SNil" then fun steps => .ok (.string [], steps)
      else
        match values with
        | .string head :: .string tail :: _ => appendText head tail
        | _ => typeError
    | .Array, values =>
      if tag = "ALeaf" then fun steps => .ok (.array [values.headD .undefined], steps)
      else
        match values with
        | .array xs :: .array ys :: _ => fun steps =>
          if maxArray < xs.length + ys.length then
            .error (.budget "executable JavaScript array element budget exhausted")
          else .ok (.array (xs ++ ys), steps)
        | _ => typeError
    | .ordinary, values => fun steps =>
      .ok (.object (defineAll [("$", text tag)] fields values), steps)
    | _, _ => typeError

def «matches» (owner : Owner) (tag : String) (value : Js) : Bool :=
  match owner, value with
  | .Nat, .bigint n => if tag = "Zero" then n = 0 else n ≠ 0
  | .Nat, _ => tag ≠ "Zero"
  | .Bool, value => if tag = "False" then !truthy value else truthy value
  | .String, .string units => if tag = "SNil" then units = [] else units ≠ []
  | .String, _ => tag ≠ "SNil"
  | .Array, .array elements =>
    if tag = "ALeaf" then elements.length = 1 else elements.length ≠ 1
  | .Array, _ => tag ≠ "ALeaf"
  | _, value => value.hasTag tag

def field (owner : Owner) (tag : String) (value : Js) (index : Nat) (name : String) : Call Js :=
  match owner, value with
  | .Nat, .bigint n => fun steps => .ok (.bigint (n - 1), steps)
  | .U32, .number n => u32ToWord n
  | .F32, .float bits => u32ToWord (engine.store bits).toNat
  | .Char, .string units => fun steps =>
    .ok ((codePoint units).elim .undefined Js.number, steps)
  | .String, .string units => fun steps =>
    let width := if 0xFFFF < (codePoint units).getD 0 then 2 else 1
    .ok (.string (if index = 0 then units.take width else units.drop width), steps)
  | .Array, .array elements => fun steps =>
    .ok (if tag = "ALeaf" then elements.headD .undefined
      else if index = 0 then .array (elements.take (elements.length / 2))
      else .array (elements.drop (elements.length / 2)), steps)
  | .ordinary, value => fun steps => .ok (value.get name, steps)
  | _, _ => typeError

end Constructors

/-! ## 5. Arrays -/

/-- The functions on arrays that the runtime has itself. -/
inductive ArrayOperation where
  | set | get | swap | size | clone

/-- `native` of an array function. -/
def native (operation : ArrayOperation) (args : List Js) : Call Js :=
  tick <|
    match operation, args with
    | .set, .array a :: .number b :: c :: _ => fun steps =>
      .ok (.array (a.set (b % a.length) c), steps)
    | .get, .array a :: .number b :: _ => fun steps =>
      .ok (tuple (.array a) (a.getD (b % a.length) .undefined), steps)
    | .swap, .array a :: .number b :: c :: _ => fun steps =>
      .ok (tuple (.array (a.set (b % a.length) c)) (a.getD (b % a.length) .undefined), steps)
    | .size, .array a :: _ => fun steps => .ok (tuple (.array a) (.number a.length), steps)
    | .clone, .array a :: _ => fun steps => .ok (tuple (.array a) (.array a), steps)
    | _, _ => typeError

end TeamyBend.Compiler.JavaScript
