/-
# Request framing

A session reads one request a line.  `check_json_depth` looks at the bytes of a line before the
JSON parser does: one object, delimiters matched outside of string literals, and no more of them
open than the parser may nest.  The limit on the constructor trees of a request (`charge`) is kept
apart from it, on the parsed values.

The stack of the source has its top at the front here.  Field values and names are read by the
JSON parser, so a string literal of a request is any literal.
-/
import TeamyBend.Library.NestedText
import TeamyBend.Kernel.Term
import Mathlib.Data.List.Forall2

namespace TeamyBend.Protocol

open Library.Nested

/-! ## 1. The guard -/

/-- `MAX_JSON_DEPTH`. -/
def maxJsonDepth : Nat := 208

/-- JSON whitespace. -/
def isBlank (byte : UInt8) : Bool := byte == 32 || byte == 9 || byte == 13 || byte == 10

/-- The variables of the loop of `check_json_depth`. -/
structure Scan where
  quoted : Bool
  escaped : Bool
  started : Bool
  complete : Bool
  delimiters : List UInt8

/-- The variables before the loop. -/
def Scan.start : Scan := ⟨false, false, false, false, []⟩

/-- A byte of the object. -/
def Scan.inObject (s : Scan) (byte : UInt8) : Except String Scan :=
  if s.quoted then
    if s.escaped then .ok { s with escaped := false }
    else if byte = 92 then .ok { s with escaped := true }
    else if byte = 34 then .ok { s with quoted := false }
    else .ok s
  else if byte = 34 then .ok { s with quoted := true }
  else if byte = 123 ∨ byte = 91 then
    if maxJsonDepth < s.delimiters.length + 1 then .error "JSON nesting exceeds 208"
    else .ok { s with delimiters := byte :: s.delimiters }
  else if byte = 125 ∨ byte = 93 then
    let expected := if byte = 125 then 123 else 91
    match s.delimiters with
    | [] => .error "invalid request: mismatched JSON delimiters"
    | delimiter :: delimiters =>
      if delimiter = expected then
        .ok { s with delimiters := delimiters, complete := delimiters.isEmpty }
      else .error "invalid request: mismatched JSON delimiters"
  else .ok s

/-- The loop of `check_json_depth`. -/
def Scan.step (s : Scan) (byte : UInt8) : Except String Scan :=
  if s.complete then
    if isBlank byte then .ok s
    else .error "invalid request: trailing content after JSON object"
  else if s.started then s.inObject byte
  else if isBlank byte then .ok s
  else if byte = 123 then Scan.inObject { s with started := true } byte
  else .error "invalid request: expected one JSON object"

/-- `check_json_depth`. -/
def checkJsonDepth (input : List UInt8) : Except String Unit := do
  let s ← input.foldlM Scan.step .start
  if s.complete then .ok () else .error "invalid request: incomplete JSON object"

/-! ## 2. What a line is -/

/-- What a byte of JSON is outside of a string literal. -/
def jsonMark (byte : UInt8) : Mark UInt8 :=
  if byte = 34 then .quote
  else if byte = 123 ∨ byte = 91 then .opening
  else if byte = 125 then .closing 123
  else if byte = 93 then .closing 91
  else .plain

/-- The delimiters of JSON, its quotes, and the backslash. -/
def json : Alphabet UInt8 := ⟨jsonMark, 92, rfl⟩

/-- Nothing but whitespace. -/
def Blank (text : List UInt8) : Prop := ∀ byte ∈ text, isBlank byte

/-- **One object with nested and matched delimiters**, between whitespace. -/
structure Framed (line : List UInt8) : Prop where
  shape : ∃ lead content trail, line = lead ++ 123 :: (content ++ 125 :: trail) ∧ Blank lead ∧
    Content json content ∧ Blank trail
  level : ∀ beginning, beginning <+: line → openMarks json .outside beginning ≤ maxJsonDepth

/-! ## 3. The guard accepts these lines -/

/-- The loop goes through the text and completes the object. -/
def Scan.Accepts (s : Scan) (text : List UInt8) : Prop :=
  ∃ s', text.foldlM Scan.step s = .ok s' ∧ s'.complete = true

/-- The guard lets through what the scan accepts. -/
theorem checkJsonDepth_eq_ok {input : List UInt8} :
    checkJsonDepth input = .ok () ↔ Scan.start.Accepts input := by
  unfold checkJsonDepth Scan.Accepts
  cases hrun : input.foldlM Scan.step .start with
  | error message =>
    constructor
    · intro h
      cases h
    · rintro ⟨s', h, -⟩
      cases h
  | ok s =>
    have hbind : (Except.ok s >>= fun s => if s.complete = true then (.ok () : Except String Unit)
        else .error "invalid request: incomplete JSON object") =
        if s.complete = true then .ok () else .error "invalid request: incomplete JSON object" :=
      rfl
    rw [hbind]
    by_cases hs : s.complete = true
    · simp [hs]
    · simp [hs]

theorem Scan.accepts_nil {s : Scan} : s.Accepts [] ↔ s.complete = true := by
  constructor
  · rintro ⟨s', hrun, hs⟩
    cases hrun
    exact hs
  · exact fun h => ⟨s, rfl, h⟩

/-- A byte is accepted when its step succeeds and the rest is accepted. -/
theorem Scan.accepts_cons {s : Scan} {byte : UInt8} {text : List UInt8} :
    s.Accepts (byte :: text) ↔ ∃ s', s.step byte = .ok s' ∧ s'.Accepts text := by
  unfold Scan.Accepts
  rw [List.foldlM_cons]
  cases s.step byte with
  | error message =>
    constructor
    · rintro ⟨s', h, -⟩
      cases h
    · rintro ⟨s', h, -⟩
      cases h
  | ok s' =>
    constructor
    · exact fun h => ⟨s', rfl, h⟩
    · rintro ⟨s'', h, hs⟩
      cases h
      exact hs

/-- Only whitespace follows the object. -/
theorem Scan.accepts_complete {s : Scan} {text : List UInt8} (hs : s.complete = true) :
    s.Accepts text ↔ Blank text := by
  induction text with
  | nil => simp [Scan.accepts_nil, hs, Blank]
  | cons byte text ih =>
    rw [Scan.accepts_cons]
    simp only [Scan.step, hs, if_true, Blank, List.forall_mem_cons] at ih ⊢
    by_cases hblank : isBlank byte = true
    · simp only [hblank, if_true, true_and]
      constructor
      · rintro ⟨s', h, hs'⟩
        cases h
        exact ih.mp hs'
      · exact fun h => ⟨s, rfl, ih.mpr h⟩
    · simp [hblank]

/-- The loop inside of the object, where it reads. -/
def reading (r : Reading) (delimiters : List UInt8) : Scan :=
  match r with
  | .outside => ⟨false, false, true, false, delimiters⟩
  | .inside => ⟨true, false, true, false, delimiters⟩
  | .escaped => ⟨true, true, true, false, delimiters⟩

/-- With `n` delimiters open, no beginning of the text leaves more open than the limit. -/
def Level (n : Int) (r : Reading) (text : List UInt8) : Prop :=
  ∀ beginning, beginning <+: text → n + openMarks json r beginning ≤ maxJsonDepth

theorem level_nil {n : Int} {r : Reading} : Level n r [] ↔ n ≤ maxJsonDepth := by
  constructor
  · intro h
    simpa [openMarks] using h [] (List.prefix_refl [])
  · intro h beginning hb
    obtain rfl := List.prefix_nil.mp hb
    simpa [openMarks] using h

/-- A byte moves the level by its weight. -/
theorem level_cons {n : Int} {r : Reading} {byte : UInt8} {text : List UInt8} :
    Level n r (byte :: text) ↔
      n ≤ maxJsonDepth ∧ Level (n + r.weight json byte) (r.next json byte) text := by
  constructor
  · intro h
    refine ⟨level_nil.mp fun beginning hb => h beginning (hb.trans List.nil_prefix), ?_⟩
    intro beginning hb
    have hcons := h (byte :: beginning) (List.cons_prefix_cons.mpr ⟨rfl, hb⟩)
    rwa [openMarks, ← Int.add_assoc] at hcons
  · rintro ⟨hn, h⟩ beginning hb
    rcases List.prefix_cons_iff.mp hb with rfl | ⟨t, rfl, ht⟩
    · simpa [openMarks] using hn
    · rw [openMarks, ← Int.add_assoc]
      exact h t ht

theorem mark_blank {byte : UInt8} (h : isBlank byte = true) : json.mark byte = .plain := by
  simp only [isBlank, Bool.or_eq_true, beq_iff_eq] at h
  rcases h with ((rfl | rfl) | rfl) | rfl <;> rfl

/-- Whitespace leaves nothing open. -/
theorem Blank.level {n : Int} {text : List UInt8} (h : Blank text) (hn : n ≤ maxJsonDepth) :
    Level n .outside text := by
  intro beginning hb
  have hplain : ∀ byte ∈ beginning, json.mark byte = .plain :=
    fun byte hbyte => mark_blank (h byte (hb.subset hbyte))
  rw [(Content.of_plain hplain).closed.2]
  simpa using hn

/-- What a byte is decides the step outside of a literal. -/
theorem step_outside (delimiters : List UInt8) (byte : UInt8) :
    (reading .outside delimiters).step byte =
      match json.mark byte with
      | .plain => .ok (reading .outside delimiters)
      | .quote => .ok (reading .inside delimiters)
      | .opening =>
        if maxJsonDepth < delimiters.length + 1 then .error "JSON nesting exceeds 208"
        else .ok (reading .outside (byte :: delimiters))
      | .closing opener =>
        match delimiters with
        | [] => .error "invalid request: mismatched JSON delimiters"
        | delimiter :: delimiters =>
          if delimiter = opener then
            .ok { reading .outside delimiters with complete := delimiters.isEmpty }
          else .error "invalid request: mismatched JSON delimiters" := by
  simp only [Scan.step, Scan.inObject, reading, json, jsonMark]
  by_cases hquote : byte = 34
  · simp [hquote]
  · by_cases hopen : byte = 123 ∨ byte = 91
    · simp only [hquote, hopen, if_true, if_false]
      rfl
    · by_cases hbrace : byte = 125
      · subst hbrace
        cases delimiters <;> rfl
      · by_cases hbracket : byte = 93
        · subst hbracket
          cases delimiters <;> rfl
        · simp [hquote, hopen, hbrace, hbracket]

/-- Inside a string the scan only follows the reader. -/
theorem step_inside {delimiters : List UInt8} {byte : UInt8} :
    (reading .inside delimiters).step byte =
      .ok (reading (Reading.next json .inside byte) delimiters) := by
  by_cases hescape : byte = 92
  · subst hescape
    rfl
  · by_cases hquote : byte = 34
    · subst hquote
      rfl
    · have hmark : json.mark byte ≠ .quote := by
        simp only [json, jsonMark, hquote, if_false]
        split
        · simp
        · split
          · simp
          · split <;> simp
      rw [Reading.next_other hescape hmark]
      simp [Scan.step, Scan.inObject, reading, hescape, hquote]

theorem step_escaped {delimiters : List UInt8} {byte : UInt8} :
    (reading .escaped delimiters).step byte = .ok (reading .inside delimiters) := rfl

/-- A step that succeeds is the only way on. -/
theorem accepts_step {s s' : Scan} {byte : UInt8} {text : List UInt8} (h : s.step byte = .ok s') :
    s.Accepts (byte :: text) ↔ s'.Accepts text := by
  rw [Scan.accepts_cons, h]
  constructor
  · rintro ⟨s'', hs, h⟩
    cases hs
    exact h
  · exact fun h => ⟨s', rfl, h⟩

theorem not_accepts_of_error {s : Scan} {byte : UInt8} {text : List UInt8} {message : String}
    (h : s.step byte = .error message) : ¬s.Accepts (byte :: text) := by
  rw [Scan.accepts_cons, h]
  rintro ⟨s', hs, -⟩
  cases hs

/-- **The loop inside of the object** accepts what closes its delimiters within the limit. -/
theorem accepts_iff {r : Reading} {delimiters text : List UInt8} (hopen : delimiters ≠ [])
    (hlimit : delimiters.length ≤ maxJsonDepth) :
    (reading r delimiters).Accepts text ↔
      Rest json Blank r delimiters text ∧ Level delimiters.length r text := by
  induction text generalizing r delimiters with
  | nil =>
    rw [Scan.accepts_nil]
    cases r with
    | outside => simp [reading, Rest, not_closes_nil]
    | inside => simp [reading, Rest, not_resumes_nil]
    | escaped => simp [reading, Rest]
  | cons byte text ih =>
    have hlength : (delimiters.length : Int) ≤ maxJsonDepth := Int.ofNat_le.mpr hlimit
    rw [level_cons]
    cases r with
    | escaped =>
      rw [accepts_step step_escaped, ih hopen hlimit]
      simp [Rest, Reading.next, Reading.weight, hlength]
    | inside =>
      rw [accepts_step step_inside, ih hopen hlimit]
      have hrest : Rest json Blank (Reading.next json .inside byte) delimiters text ↔
          Resumes json Blank delimiters (byte :: text) := by
        by_cases hescape : byte = json.escape
        · rw [hescape, Reading.next_escape]
          exact resumes_escape.symm
        · by_cases hquote : json.mark byte = .quote
          · rw [Reading.next_end hquote]
            exact (resumes_quote hescape hquote).symm
          · rw [Reading.next_other hescape hquote]
            exact (resumes_other hescape hquote).symm
      rw [hrest]
      simp [Rest, Reading.weight, hlength]
    | outside =>
      cases hmark : json.mark byte with
      | plain =>
        have hstep := step_outside delimiters byte
        rw [hmark] at hstep
        rw [accepts_step hstep, ih hopen hlimit]
        simp [Rest, closes_plain hmark, Reading.next, Reading.weight, hmark, hlength]
      | quote =>
        have hstep := step_outside delimiters byte
        rw [hmark] at hstep
        rw [accepts_step hstep, ih hopen hlimit]
        simp [Rest, closes_quote hmark, Reading.next, Reading.weight, hmark, hlength]
      | opening =>
        have hstep := step_outside delimiters byte
        rw [hmark] at hstep
        simp only [Reading.next, Reading.weight, hmark]
        by_cases hfull : maxJsonDepth < delimiters.length + 1
        · simp only [hfull, if_true] at hstep
          refine iff_of_false (not_accepts_of_error hstep) ?_
          rintro ⟨-, -, hlevel⟩
          have hnil := hlevel [] List.nil_prefix
          simp only [openMarks] at hnil
          omega
        · simp only [hfull, if_false] at hstep
          rw [accepts_step hstep, ih (by simp) (by simp only [List.length_cons]; omega)]
          simp [Rest, closes_opening hmark hopen, hlength]
      | closing opener =>
        have hstep := step_outside delimiters byte
        rw [hmark] at hstep
        obtain ⟨delimiter, outer, rfl⟩ := List.exists_cons_of_ne_nil hopen
        simp only [Reading.next, Reading.weight, hmark, Rest, closes_closing hmark]
        by_cases hmatch : delimiter = opener
        · subst hmatch
          simp only [if_true] at hstep
          rw [accepts_step hstep]
          by_cases houter : outer = []
          · subst houter
            rw [Scan.accepts_complete rfl]
            constructor
            · intro hblank
              exact ⟨⟨[], rfl, fun _ => hblank, fun h => absurd rfl h⟩, hlength,
                hblank.level (by simp [maxJsonDepth])⟩
            · rintro ⟨⟨_, heq, hblank, -⟩, -⟩
              cases heq
              exact hblank rfl
          · have hstate : ({ reading .outside outer with complete := outer.isEmpty } : Scan) =
                reading .outside outer := by
              cases outer with
              | nil => exact absurd rfl houter
              | cons => rfl
            have hshorter : outer.length ≤ maxJsonDepth := by
              simp only [List.length_cons] at hlimit
              omega
            have hcount : ((delimiter :: outer).length : Int) + -1 = outer.length := by
              simp only [List.length_cons]
              omega
            rw [hstate, ih houter hshorter, hcount]
            constructor
            · rintro ⟨hcloses, hlevel⟩
              exact ⟨⟨outer, rfl, fun h => absurd h houter, fun _ => hcloses⟩, hlength, hlevel⟩
            · rintro ⟨⟨_, heq, -, hcloses⟩, -, hlevel⟩
              obtain ⟨-, rfl⟩ := List.cons.inj heq
              exact ⟨hcloses houter, hlevel⟩
        · simp only [hmatch, if_false] at hstep
          refine iff_of_false (not_accepts_of_error hstep) ?_
          rintro ⟨⟨_, heq, -⟩, -⟩
          exact hmatch (List.cons.inj heq).1

/-- The guard before the object. -/
theorem accepts_start {text : List UInt8} :
    Scan.start.Accepts text ↔ ∃ lead rest, text = lead ++ 123 :: rest ∧ Blank lead ∧
      (reading .outside [123]).Accepts rest := by
  induction text with
  | nil =>
    rw [Scan.accepts_nil]
    simp [Scan.start]
  | cons byte text ih =>
    by_cases hblank : isBlank byte = true
    · have hstep : Scan.start.step byte = .ok Scan.start := by
        simp [Scan.step, Scan.start, hblank]
      rw [accepts_step hstep, ih]
      constructor
      · rintro ⟨lead, rest, rfl, hlead, h⟩
        exact ⟨byte :: lead, rest, rfl, List.forall_mem_cons.mpr ⟨hblank, hlead⟩, h⟩
      · rintro ⟨lead, rest, heq, hlead, h⟩
        cases lead with
        | nil =>
          obtain ⟨rfl, -⟩ := List.cons.inj heq
          simp [isBlank] at hblank
        | cons b lead =>
          obtain ⟨-, rfl⟩ := List.cons.inj heq
          exact ⟨lead, rest, rfl, (List.forall_mem_cons.mp hlead).2, h⟩
    · by_cases hbrace : byte = 123
      · subst hbrace
        have hstep : Scan.start.step 123 = .ok (reading .outside [123]) := rfl
        rw [accepts_step hstep]
        constructor
        · exact fun h => ⟨[], text, rfl, by simp [Blank], h⟩
        · rintro ⟨lead, rest, heq, hlead, h⟩
          cases lead with
          | nil =>
            obtain ⟨-, rfl⟩ := List.cons.inj heq
            exact h
          | cons b lead =>
            obtain ⟨rfl, -⟩ := List.cons.inj heq
            exact absurd (hlead 123 (by simp)) hblank
      · have hstep : Scan.start.step byte =
            .error "invalid request: expected one JSON object" := by
          simp [Scan.step, Scan.start, hblank, hbrace]
        refine iff_of_false (not_accepts_of_error hstep) ?_
        rintro ⟨lead, rest, heq, hlead, -⟩
        cases lead with
        | nil => exact hbrace (List.cons.inj heq).1
        | cons b lead =>
          obtain ⟨rfl, -⟩ := List.cons.inj heq
          exact hblank (hlead byte (by simp))

/-- What closes one brace. -/
theorem closes_brace {trail : List UInt8 → Prop} {text : List UInt8} :
    Closes (A := json) trail [123] text ↔
      ∃ content rest, text = content ++ 125 :: rest ∧ Content json content ∧ trail rest := by
  constructor
  · intro h
    obtain ⟨c, content, rest, hc, hcontent, rfl, htrail, -⟩ := h.split
    have hbrace : c = 125 := by
      simp only [json, jsonMark] at hc
      split at hc
      · cases hc
      · split at hc
        · cases hc
        · split at hc
          · assumption
          · split at hc
            · injection hc with hc
              exact absurd hc (by decide)
            · cases hc
    exact ⟨content, rest, by rw [hbrace], hcontent, htrail rfl⟩
  · rintro ⟨content, rest, rfl, hcontent, htrail⟩
    exact .last rfl hcontent htrail

/-- **The guard is exact.** -/
theorem checkJsonDepth_iff {line : List UInt8} : checkJsonDepth line = .ok () ↔ Framed line := by
  have hbrace (lead rest : List UInt8) (hlead : Blank lead) :
      Level 0 .outside (lead ++ 123 :: rest) ↔ Level 1 .outside rest := by
    induction lead with
    | nil => simp [level_cons, Reading.next, Reading.weight, json, jsonMark, maxJsonDepth]
    | cons byte lead ih =>
      obtain ⟨hbyte, hlead⟩ := List.forall_mem_cons.mp hlead
      rw [List.cons_append, level_cons, Reading.next_plain (mark_blank hbyte), Reading.weight,
        mark_blank hbyte]
      simpa [maxJsonDepth] using ih hlead
  have hzero : Level 0 .outside line ↔
      ∀ beginning, beginning <+: line → openMarks json .outside beginning ≤ maxJsonDepth := by
    simp [Level]
  rw [checkJsonDepth_eq_ok, accepts_start]
  constructor
  · rintro ⟨lead, rest, rfl, hlead, h⟩
    obtain ⟨hcloses, hlevel⟩ := (accepts_iff (by simp) (by simp [maxJsonDepth])).mp h
    obtain ⟨content, trail, rfl, hcontent, htrail⟩ := closes_brace.mp hcloses
    exact ⟨⟨lead, content, trail, rfl, hlead, hcontent, htrail⟩,
      hzero.mp ((hbrace lead _ hlead).mpr hlevel)⟩
  · rintro ⟨⟨lead, content, trail, rfl, hlead, hcontent, htrail⟩, hlevel⟩
    refine ⟨lead, content ++ 125 :: trail, rfl, hlead,
      (accepts_iff (by simp) (by simp [maxJsonDepth])).mpr ⟨?_, ?_⟩⟩
    · exact closes_brace.mpr ⟨content, trail, rfl, hcontent, htrail⟩
    · exact (hbrace lead _ hlead).mp (hzero.mpr hlevel)

/-! ## 4. Constructor data -/

/-- `MAX_DATA_DEPTH`. -/
def maxDataDepth : Nat := 96

/-- `MAX_DATA_NODES`. -/
def maxDataNodes : Nat := 16384

/-- `struct DataValue`. -/
inductive DataValue where
  | mk (constructor : String) (fields : List DataValue)

/-- **Induction over trees.** -/
@[elab_as_elim, induction_eliminator]
theorem DataValue.induct {motive : DataValue → Prop}
    (mk : ∀ constructor fields, (∀ field ∈ fields, motive field) → motive (mk constructor fields))
    (value : DataValue) : motive value :=
  @DataValue.rec motive (fun fields => ∀ field ∈ fields, motive field) mk (by simp)
    (fun _ _ h hs => by simpa using ⟨h, hs⟩) value

/-- `charge`. -/
def charge (depth : Nat) : StateT Nat (Except String) Unit := do
  if maxDataDepth < depth then throw "constructor nesting exceeds 96"
  else
    let budget ← get
    if budget = 0 then throw "constructor node budget exceeded" else set (budget - 1)

mutual

/-- `DataValue::to_term_at`. -/
def toTermAt (depth : Nat) : DataValue → StateT Nat (Except String) Kernel.Term
  | .mk constructor fields => do
    charge depth
    return .Ctr constructor (← toTermsAt (depth + 1) fields)

/-- `to_term_at` of the fields. -/
def toTermsAt (depth : Nat) : List DataValue → StateT Nat (Except String) (List Kernel.Term)
  | [] => return []
  | value :: values => do
    let term ← toTermAt depth value
    return term :: (← toTermsAt depth values)

end

/-- `arguments`. -/
def arguments (values : List DataValue) : Except String (List Kernel.Term) :=
  (toTermsAt 0 values).run' maxDataNodes

mutual

/-- The nesting of constructors, where the root is at depth zero. -/
def DataValue.depth : DataValue → Nat
  | .mk _ fields => depthBelow fields

/-- One more than the largest depth of the fields, and zero without fields. -/
def depthBelow : List DataValue → Nat
  | [] => 0
  | value :: values => Nat.max (value.depth + 1) (depthBelow values)

end

/-! ## 5. How requests are written -/

/-- A string literal. -/
def Literal (text : List UInt8) : Prop := ∃ chars, text = 34 :: (chars ++ [34]) ∧ Quoted json chars

/-- A text between whitespace. -/
def Padded (text padded : List UInt8) : Prop :=
  ∃ lead trail, padded = lead ++ text ++ trail ∧ Blank lead ∧ Blank trail

/-- A member of an object: a name, a colon and a value. -/
def Member (Value : List UInt8 → Prop) (text : List UInt8) : Prop :=
  ∃ name value paddedName paddedValue, Literal name ∧ Value value ∧ Padded name paddedName ∧
    Padded value paddedValue ∧ text = paddedName ++ 58 :: paddedValue

/-- An object with these members, in any order. -/
def Object (members : List (List UInt8 → Prop)) (text : List UInt8) : Prop :=
  ∃ order texts, List.Perm order members ∧
    List.Forall₂ (fun member part => member part) order texts ∧
      text = 123 :: (([44].intercalate texts) ++ [125])

/-- The bytes of JSON numbers. -/
def Number (text : List UInt8) : Prop :=
  text ≠ [] ∧ ∀ byte ∈ text, (48 ≤ byte ∧ byte ≤ 57) ∨ byte ∈ ([43, 45, 46, 69, 101] : List UInt8)

/-- An array of padded elements. -/
def ArrayOf (texts : List (List UInt8)) (text : List UInt8) : Prop :=
  (texts = [] ∧ ∃ blank, Blank blank ∧ text = 91 :: (blank ++ [93])) ∨
    ∃ padded, List.Forall₂ Padded texts padded ∧ text = 91 :: (([44].intercalate padded) ++ [93])

mutual

/-- How a constructor tree is written. -/
def DataValue.Written : DataValue → List UInt8 → Prop
  | .mk _ fields, text =>
    Object [Member Literal, Member fun value => ∃ texts, AllWritten fields texts ∧
      ArrayOf texts value] text

/-- How the trees of a list are written. -/
def AllWritten : List DataValue → List (List UInt8) → Prop
  | [], texts => texts = []
  | value :: values, texts => ∃ text rest, texts = text :: rest ∧ value.Written text ∧
      AllWritten values rest

end

/-- How a request with these arguments is written. -/
def RequestWritten (args : List DataValue) (text : List UInt8) : Prop :=
  ∃ object, Padded object text ∧ Object [Member Number, Member Literal,
    Member fun value => ∃ texts, AllWritten args texts ∧ ArrayOf texts value] object

theorem depth_lt_depthBelow {value : DataValue} {values : List DataValue} (h : value ∈ values) :
    value.depth + 1 ≤ depthBelow values := by
  induction values with
  | nil => cases h
  | cons first values ih =>
    rw [depthBelow]
    rcases List.mem_cons.mp h with rfl | h
    · exact Nat.le_max_left _ _
    · exact Nat.le_trans (ih h) (Nat.le_max_right _ _)

theorem depthBelow_le {values : List DataValue} {n : Nat} (h : ∀ value ∈ values, value.depth < n) :
    depthBelow values ≤ n := by
  induction values with
  | nil => exact Nat.zero_le n
  | cons first values ih =>
    obtain ⟨hfirst, hvalues⟩ := List.forall_mem_cons.mp h
    exact Nat.max_le.mpr ⟨hfirst, ih hvalues⟩

/-- Every text of a list is of a tree of the list. -/
theorem AllWritten.exists_of_mem {values : List DataValue} {texts : List (List UInt8)}
    {text : List UInt8} (h : AllWritten values texts) (htext : text ∈ texts) :
    ∃ value ∈ values, value.Written text := by
  induction values generalizing texts with
  | nil =>
    rw [AllWritten] at h
    simp [h] at htext
  | cons value values ih =>
    rw [AllWritten] at h
    obtain ⟨first, rest, rfl, hvalue, hrest⟩ := h
    rcases List.mem_cons.mp htext with rfl | htext
    · exact ⟨value, List.mem_cons_self .., hvalue⟩
    · obtain ⟨other, hmem, hwritten⟩ := ih hrest htext
      exact ⟨other, List.mem_cons_of_mem _ hmem, hwritten⟩

/-- A run of two parts runs through the first. -/
theorem ok_of_bind {α β : Type} {m : StateT Nat (Except String) α}
    {f : α → StateT Nat (Except String) β} {budget : Nat} {r : β × Nat}
    (h : (m >>= f) budget = .ok r) : ∃ s, m budget = .ok s ∧ f s.1 s.2 = .ok r := by
  have hrun : (m >>= f) budget = (m budget).bind fun s => f s.1 s.2 := rfl
  rw [hrun] at h
  cases hm : m budget with
  | error message =>
    rw [hm] at h
    cases h
  | ok s =>
    rw [hm] at h
    exact ⟨s, rfl, h⟩

theorem depth_of_charge {depth budget : Nat} {r : Unit × Nat} (h : charge depth budget = .ok r) :
    depth ≤ maxDataDepth := by
  by_contra hdepth
  have hlt : maxDataDepth < depth := by omega
  simp only [charge, hlt, if_true] at h
  cases h

/-- A list is converted value by value. -/
theorem forall_of_toTermsAt {depth budget : Nat} {values : List DataValue}
    {r : List Kernel.Term × Nat} {P : DataValue → Prop} (h : toTermsAt depth values budget = .ok r)
    (hvalue : ∀ value ∈ values, ∀ b s, toTermAt depth value b = .ok s → P value) :
    ∀ value ∈ values, P value := by
  induction values generalizing budget r with
  | nil => simp
  | cons first values ih =>
    obtain ⟨hfirst, hrest⟩ := List.forall_mem_cons.mp hvalue
    rw [toTermsAt] at h
    obtain ⟨s, hs, htail⟩ := ok_of_bind h
    obtain ⟨s', hs', -⟩ := ok_of_bind htail
    exact List.forall_mem_cons.mpr ⟨hfirst _ _ hs, ih hs' hrest⟩

/-- What a tree that is converted may nest. -/
theorem depth_of_toTermAt {depth budget : Nat} {value : DataValue} {r : Kernel.Term × Nat}
    (h : toTermAt depth value budget = .ok r) : depth + value.depth ≤ maxDataDepth := by
  induction value generalizing depth budget r with
  | mk constructor fields ih =>
    rw [toTermAt] at h
    obtain ⟨s, hcharged, hrest⟩ := ok_of_bind h
    obtain ⟨s', hfields, -⟩ := ok_of_bind hrest
    have hdepth := depth_of_charge hcharged
    have hall : ∀ field ∈ fields, depth + 1 + field.depth ≤ maxDataDepth :=
      forall_of_toTermsAt hfields fun field hfield _ _ hrun => ih field hfield hrun
    have hbelow : depthBelow fields ≤ maxDataDepth - depth :=
      depthBelow_le fun field hfield => by
        have hfield := hall field hfield
        omega
    rw [DataValue.depth]
    omega

/-- **The data limit** holds for every argument list that is converted. -/
theorem depth_of_arguments {values : List DataValue} {terms : List Kernel.Term}
    (h : arguments values = .ok terms) : ∀ value ∈ values, value.depth ≤ maxDataDepth := by
  unfold arguments StateT.run' at h
  cases hrun : toTermsAt 0 values maxDataNodes with
  | error message =>
    rw [hrun] at h
    cases h
  | ok r =>
    exact forall_of_toTermsAt hrun fun value _ _ _ hvalue => by
      simpa using depth_of_toTermAt hvalue

/-! ## 6. Requests pass -/

section Within

variable {n : Nat} {text : List UInt8}

theorem Blank.within (h : Blank text) : Within json n text :=
  .plain fun byte hbyte => mark_blank (h byte hbyte)

theorem Literal.within (h : Literal text) : Within json n text := by
  obtain ⟨chars, rfl, hchars⟩ := h
  exact .quotation rfl rfl hchars

theorem Padded.within {padded : List UInt8} (h : Padded text padded) (htext : Within json n text) :
    Within json n padded := by
  obtain ⟨lead, trail, rfl, hlead, htrail⟩ := h
  exact (hlead.within.append htext).append htrail.within

theorem within_byte {byte : UInt8} (h : json.mark byte = .plain) : Within json n [byte] :=
  .plain fun _ hb => List.mem_singleton.mp hb ▸ h

theorem Member.within {Value : List UInt8 → Prop} (h : Member Value text)
    (hvalue : ∀ value, Value value → Within json n value) : Within json n text := by
  obtain ⟨name, value, paddedName, paddedValue, hname, hv, hpn, hpv, rfl⟩ := h
  have hcolon : Within json n ([58] ++ paddedValue) :=
    (within_byte rfl).append (hpv.within (hvalue value hv))
  exact (hpn.within hname.within).append hcolon

/-- A list of texts is as deep as its deepest. -/
theorem within_intercalate {texts : List (List UInt8)} (h : ∀ part ∈ texts, Within json n part) :
    Within json n ([44].intercalate texts) := by
  induction texts with
  | nil => exact .plain (by simp [List.intercalate])
  | cons first texts ih =>
    obtain ⟨hfirst, htexts⟩ := List.forall_mem_cons.mp h
    cases texts with
    | nil => simpa [List.intercalate] using hfirst
    | cons second texts =>
      have hcomma : Within json n ([44] ++ [44].intercalate (second :: texts)) :=
        (within_byte rfl).append (ih htexts)
      simpa [List.intercalate] using hfirst.append hcomma

/-- An object is what stands between its braces. -/
theorem Object.inner {members : List (List UInt8 → Prop)} (h : Object members text)
    (hmember : ∀ member ∈ members, ∀ part, member part → Within json n part) :
    ∃ inner, text = 123 :: (inner ++ [125]) ∧ Within json n inner := by
  obtain ⟨order, texts, hperm, hparts, rfl⟩ := h
  refine ⟨_, rfl, within_intercalate ?_⟩
  have hall : ∀ member ∈ order, ∀ part, member part → Within json n part :=
    fun member hmem => hmember member (hperm.mem_iff.mp hmem)
  clear hperm
  induction hparts with
  | nil => simp
  | cons hpart _ ih =>
    obtain ⟨hfirst, hrest⟩ := List.forall_mem_cons.mp hall
    exact List.forall_mem_cons.mpr ⟨hfirst _ hpart, ih hrest⟩

theorem Object.within {members : List (List UInt8 → Prop)} (h : Object members text)
    (hmember : ∀ member ∈ members, ∀ part, member part → Within json n part) :
    Within json (n + 1) text := by
  obtain ⟨inner, rfl, hinner⟩ := h.inner hmember
  exact .group rfl rfl hinner

theorem ArrayOf.within {texts : List (List UInt8)} (h : ArrayOf texts text)
    (htexts : ∀ part ∈ texts, Within json n part) : Within json (n + 1) text := by
  rcases h with ⟨-, blank, hblank, rfl⟩ | ⟨padded, hpadded, rfl⟩
  · exact .group rfl rfl hblank.within
  · refine .group rfl rfl (within_intercalate ?_)
    induction hpadded with
    | nil => simp
    | cons hpad _ ih =>
      obtain ⟨hfirst, hrest⟩ := List.forall_mem_cons.mp htexts
      exact List.forall_mem_cons.mpr ⟨hpad.within hfirst, ih hrest⟩

/-- A number opens nothing. -/
theorem Number.within (h : Number text) : Within json n text := by
  refine .plain fun byte hbyte => ?_
  have hcases := h.2 byte hbyte
  simp only [List.mem_cons, List.not_mem_nil, or_false] at hcases
  have hne : byte ≠ 34 ∧ byte ≠ 123 ∧ byte ≠ 91 ∧ byte ≠ 125 ∧ byte ≠ 93 := by
    rcases hcases with ⟨hlow, hhigh⟩ | rfl | rfl | rfl | rfl | rfl
    · refine ⟨?_, ?_, ?_, ?_, ?_⟩ <;>
      · rintro rfl
        first | exact absurd hlow (by decide) | exact absurd hhigh (by decide)
    all_goals decide
  simp [json, jsonMark, hne]

/-- A tree takes two levels a constructor. -/
theorem DataValue.Written.within {value : DataValue} (h : value.Written text) :
    Within json (2 * (value.depth + 1)) text := by
  induction value generalizing text with
  | mk constructor fields ih =>
    rw [DataValue.Written] at h
    have hlevels : 2 * (depthBelow fields + 1) = 2 * depthBelow fields + 1 + 1 := by omega
    rw [DataValue.depth, hlevels]
    refine Object.within h fun member hmember part hpart => ?_
    simp only [List.mem_cons, List.not_mem_nil, or_false] at hmember
    rcases hmember with rfl | rfl
    · exact hpart.within fun name hname => hname.within
    · refine Member.within hpart ?_
      rintro array ⟨texts, htexts, harray⟩
      refine harray.within fun item hitem => ?_
      obtain ⟨field, hfield, hwritten⟩ := htexts.exists_of_mem hitem
      exact (ih field hfield hwritten).mono (by
        have hdepth := depth_lt_depthBelow hfield
        omega)

/-- **A written request is framed.** -/
theorem framed_of_written {args : List DataValue}
    (hdepth : ∀ value ∈ args, value.depth ≤ maxDataDepth) (h : RequestWritten args text) :
    Framed text := by
  obtain ⟨object, ⟨lead, trail, rfl, hlead, htrail⟩, hobject⟩ := h
  have hmember : ∀ member ∈ [Member Number, Member Literal, Member fun value =>
      ∃ texts, AllWritten args texts ∧ ArrayOf texts value],
      ∀ part, member part → Within json (2 * (maxDataDepth + 1) + 1) part := by
    intro member hmember part hpart
    simp only [List.mem_cons, List.not_mem_nil, or_false] at hmember
    rcases hmember with rfl | rfl | rfl
    · exact hpart.within fun number hnumber => hnumber.within
    · exact hpart.within fun name hname => hname.within
    · refine Member.within hpart ?_
      rintro array ⟨texts, htexts, harray⟩
      refine harray.within fun item hitem => ?_
      obtain ⟨value, hvalue, hwritten⟩ := htexts.exists_of_mem hitem
      exact hwritten.within.mono (by
        have hvalue := hdepth value hvalue
        omega)
  obtain ⟨inner, rfl, hinner⟩ := hobject.inner hmember
  have hwithin : Within json maxJsonDepth (lead ++ 123 :: (inner ++ [125]) ++ trail) :=
    (hlead.within.append ((Within.group rfl rfl hinner).mono (by decide))).append htrail.within
  exact ⟨⟨lead, inner, trail, by simp, hlead, hinner.content, htrail⟩, hwithin.level⟩

end Within

theorem Literal.empty : Literal [34, 34] := ⟨[], rfl, .nil⟩

theorem Padded.self (text : List UInt8) : Padded text text :=
  ⟨[], [], by simp, by simp [Blank], by simp [Blank]⟩

theorem Member.of_value {Value : List UInt8 → Prop} {value : List UInt8} (h : Value value) :
    Member Value ([34, 34] ++ 58 :: value) :=
  ⟨_, value, _, _, .empty, h, .self _, .self _, rfl⟩

theorem ArrayOf.exists (texts : List (List UInt8)) : ∃ text, ArrayOf texts text := by
  refine ⟨_, .inr ⟨texts, ?_, rfl⟩⟩
  exact List.forall₂_same.mpr fun text _ => .self text

theorem AllWritten.exists {values : List DataValue}
    (h : ∀ value ∈ values, ∃ text, value.Written text) : ∃ texts, AllWritten values texts := by
  induction values with
  | nil => exact ⟨[], rfl⟩
  | cons first values ih =>
    obtain ⟨⟨text, hfirst⟩, hrest⟩ := List.forall_mem_cons.mp h
    obtain ⟨texts, htexts⟩ := ih hrest
    exact ⟨text :: texts, text, texts, rfl, hfirst, htexts⟩

theorem DataValue.exists_written (value : DataValue) : ∃ text, value.Written text := by
  induction value with
  | mk constructor fields ih =>
    obtain ⟨texts, htexts⟩ := AllWritten.exists ih
    obtain ⟨array, harray⟩ := ArrayOf.exists texts
    exact ⟨_, _, _, List.Perm.refl _, .cons (Member.of_value Literal.empty)
      (.cons (Member.of_value ⟨texts, htexts, harray⟩) .nil), rfl⟩

/-- Every request can be written. -/
theorem exists_requestWritten (args : List DataValue) : ∃ text, RequestWritten args text := by
  obtain ⟨texts, htexts⟩ := AllWritten.exists fun value (_ : value ∈ args) => value.exists_written
  obtain ⟨array, harray⟩ := ArrayOf.exists texts
  have hnumber : Number [48] := ⟨by simp, by simp⟩
  exact ⟨_, _, .self _, _, _, List.Perm.refl _, .cons (Member.of_value hnumber)
    (.cons (Member.of_value Literal.empty) (.cons (Member.of_value ⟨texts, htexts, harray⟩) .nil)),
    rfl⟩

/-- **The framing guard is exact**, and every request within the data limit passes it. -/
theorem framing_exact :
    (∀ line, checkJsonDepth line = .ok () ↔ Framed line) ∧
      (∀ args text, (∀ value ∈ args, value.depth ≤ maxDataDepth) → RequestWritten args text →
        checkJsonDepth text = .ok ()) ∧
      ∀ args terms, arguments args = .ok terms → ∀ value ∈ args, value.depth ≤ maxDataDepth :=
  ⟨fun _ => checkJsonDepth_iff,
    fun _ _ hdepth hwritten => checkJsonDepth_iff.mpr (framed_of_written hdepth hwritten),
    fun _ _ h => depth_of_arguments h⟩

/-- The request for one successor of zero can be written, and passes the guard. -/
theorem framing_exact_successor :
    ∃ text, RequestWritten [.mk "Succ" [.mk "Zero" []]] text ∧ checkJsonDepth text = .ok () := by
  obtain ⟨text, htext⟩ := exists_requestWritten [.mk "Succ" [.mk "Zero" []]]
  exact ⟨text, htext, framing_exact.2.1 _ text (by decide) htext⟩

end TeamyBend.Protocol
