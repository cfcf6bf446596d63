/-
# Nested marks outside of quotations

A text over any alphabet with opening and closing marks, in which a mark that stands inside of a
quotation does not count.  A quotation ends at the next quote that no escape precedes.

Two ways to speak of such a text: `Content` is the grammar, where marks come in matched pairs, and
`openMarks` counts the marks that are open after a part of it.  `Closes` is the grammar of what is
left when some marks are open, and its equations for the next letter are what a reader with a stack
computes.
-/
import Mathlib.Data.List.Basic
import Mathlib.Data.List.Infix

namespace TeamyBend.Library.Nested

/-! ## 1. Alphabets -/

/-- What a letter is outside of a quotation; a closing mark closes one opening mark. -/
inductive Mark (α : Type) where
  | plain
  | quote
  | opening
  | closing (opener : α)

/-- The marks of an alphabet, and the letter that escapes the next one inside of a quotation. -/
structure Alphabet (α : Type) where
  mark : α → Mark α
  escape : α
  escape_plain : mark escape = .plain

/-- Where a reader is. -/
inductive Reading where
  | outside
  | inside
  | escaped
  deriving DecidableEq

variable {α : Type} (A : Alphabet α)

section Reader

variable [DecidableEq α]

/-- The reader after a letter. -/
def Reading.next : Reading → α → Reading
  | outside, a =>
    match A.mark a with
    | .quote => inside
    | _ => outside
  | inside, a =>
    if a = A.escape then escaped
    else
      match A.mark a with
      | .quote => outside
      | _ => inside
  | escaped, _ => inside

/-- How a letter changes the number of open marks. -/
def Reading.weight : Reading → α → Int
  | outside, a =>
    match A.mark a with
    | .opening => 1
    | .closing _ => -1
    | _ => 0
  | _, _ => 0

/-- The marks that a text leaves open. -/
def openMarks : Reading → List α → Int
  | _, [] => 0
  | r, a :: l => r.weight A a + openMarks (r.next A a) l

/-- The reader after a text. -/
def Reading.after (r : Reading) (l : List α) : Reading := l.foldl (Reading.next A) r

@[simp] theorem Reading.after_nil (r : Reading) : r.after A [] = r := rfl

@[simp] theorem Reading.after_cons (r : Reading) (a : α) (l : List α) :
    r.after A (a :: l) = (r.next A a).after A l := rfl

theorem Reading.after_append (r : Reading) (l more : List α) :
    r.after A (l ++ more) = (r.after A l).after A more := List.foldl_append

theorem openMarks_append (r : Reading) (l more : List α) :
    openMarks A r (l ++ more) = openMarks A r l + openMarks A (r.after A l) more := by
  induction l generalizing r with
  | nil => simp [openMarks]
  | cons a l ih => simp only [List.cons_append, openMarks, ih, Reading.after_cons, Int.add_assoc]

end Reader

/-! ## 2. The grammar -/

/-- The inside of a quotation. -/
inductive Quoted : List α → Prop where
  | nil : Quoted []
  | plain {a : α} {l : List α} (hescape : a ≠ A.escape) (hquote : A.mark a ≠ .quote)
      (h : Quoted l) : Quoted (a :: l)
  | escape {a : α} {l : List α} (h : Quoted l) : Quoted (A.escape :: a :: l)

/-- **A text whose marks are nested and matched.** -/
inductive Content : List α → Prop where
  | nil : Content []
  | plain {a : α} {l : List α} (ha : A.mark a = .plain) (h : Content l) : Content (a :: l)
  | quotation {q q' : α} {s l : List α} (hq : A.mark q = .quote) (hq' : A.mark q' = .quote)
      (hs : Quoted A s) (h : Content l) : Content (q :: (s ++ q' :: l))
  | group {o c : α} {inner l : List α} (ho : A.mark o = .opening) (hc : A.mark c = .closing o)
      (hinner : Content inner) (h : Content l) : Content (o :: (inner ++ c :: l))

variable {A}

/-- Two balanced texts in a row are balanced. -/
theorem Content.append {l more : List α} (h : Content A l) (hmore : Content A more) :
    Content A (l ++ more) := by
  induction h with
  | nil => exact hmore
  | plain ha _ ih => exact .plain ha ih
  | quotation hq hq' hs _ ih => simpa using Content.quotation hq hq' hs ih
  | group ho hc hinner _ _ ih => simpa using Content.group ho hc hinner ih

theorem Content.of_plain {l : List α} (h : ∀ a ∈ l, A.mark a = .plain) : Content A l := by
  induction l with
  | nil => exact .nil
  | cons a l ih =>
    exact .plain (h a (List.mem_cons_self ..)) (ih fun b hb => h b (List.mem_cons_of_mem _ hb))

/-! ## 3. What is left to read -/

/-- The text closes these open marks, the innermost first, and then `trail` holds of the rest. -/
inductive Closes (trail : List α → Prop) : List α → List α → Prop where
  | last {o c : α} {t l : List α} (hc : A.mark c = .closing o) (ht : Content A t) (hl : trail l) :
      Closes trail [o] (t ++ c :: l)
  | more {o p c : α} {t l marks : List α} (hc : A.mark c = .closing o) (ht : Content A t)
      (h : Closes trail (p :: marks) l) : Closes trail (o :: p :: marks) (t ++ c :: l)

/-- The rest of a quotation, after which the marks are closed. -/
def Resumes (A : Alphabet α) (trail : List α → Prop) (marks l : List α) : Prop :=
  ∃ s q rest, Quoted A s ∧ A.mark q = .quote ∧ l = s ++ q :: rest ∧
    Closes (A := A) trail marks rest

/-- What a reader has to find where it is. -/
def Rest (A : Alphabet α) (trail : List α → Prop) : Reading → List α → List α → Prop
  | .outside, marks, l => Closes (A := A) trail marks l
  | .inside, marks, l => Resumes A trail marks l
  | .escaped, marks, l => ∃ a rest, l = a :: rest ∧ Resumes A trail marks rest

section Closes

variable {trail : List α → Prop} {marks l : List α} {a o : α}

/-- Content in front of a text that closes marks. -/
theorem Closes.before {t : List α} (ht : Content A t) (h : Closes (A := A) trail marks l) :
    Closes (A := A) trail marks (t ++ l) := by
  cases h with
  | last hc ht' hl =>
    rw [← List.append_assoc]
    exact .last hc (ht.append ht') hl
  | more hc ht' h =>
    rw [← List.append_assoc]
    exact .more hc (ht.append ht') h

/-- The text starts with content and a closing mark. -/
theorem Closes.split (h : Closes (A := A) trail (o :: marks) l) : ∃ c t rest,
    A.mark c = .closing o ∧ Content A t ∧ l = t ++ c :: rest ∧
      (marks = [] → trail rest) ∧ (marks ≠ [] → Closes (A := A) trail marks rest) := by
  cases h with
  | last hc ht hl => exact ⟨_, _, _, hc, ht, rfl, fun _ => hl, fun h => absurd rfl h⟩
  | more hc ht h => exact ⟨_, _, _, hc, ht, rfl, fun h => by simp at h, fun _ => h⟩

/-- A closed group followed by a text that closes the rest closes the whole. -/
theorem Closes.join {c : α} {t rest : List α} (hc : A.mark c = .closing o) (ht : Content A t)
    (hlast : marks = [] → trail rest) (hmore : marks ≠ [] → Closes (A := A) trail marks rest) :
    Closes (A := A) trail (o :: marks) (t ++ c :: rest) := by
  cases marks with
  | nil => exact .last hc ht (hlast rfl)
  | cons p marks => exact .more hc ht (hmore (by simp))

theorem not_closes_no_marks : ¬Closes (A := A) trail [] l := by
  intro h
  cases h

theorem not_closes_nil : ¬Closes (A := A) trail marks [] := by
  intro h
  cases marks with
  | nil => exact not_closes_no_marks h
  | cons o marks =>
    obtain ⟨c, t, rest, -, -, hl, -⟩ := h.split
    simp at hl

/-- A plain character is read over. -/
theorem closes_plain (ha : A.mark a = .plain) :
    Closes (A := A) trail marks (a :: l) ↔ Closes (A := A) trail marks l := by
  constructor
  · intro h
    cases marks with
    | nil => exact absurd h not_closes_no_marks
    | cons o marks =>
      obtain ⟨c, t, rest, hc, ht, hl, hlast, hmore⟩ := h.split
      cases ht with
      | nil =>
        obtain ⟨rfl, rfl⟩ := List.cons.inj hl
        simp [ha] at hc
      | plain _ ht =>
        obtain ⟨rfl, rfl⟩ := List.cons.inj hl
        exact .join hc ht hlast hmore
      | quotation hq =>
        obtain ⟨rfl, -⟩ := List.cons.inj hl
        simp [ha] at hq
      | group ho =>
        obtain ⟨rfl, -⟩ := List.cons.inj hl
        simp [ha] at ho
  · exact fun h => h.before (.plain ha .nil)

/-- A quotation mark starts a quotation. -/
theorem closes_quote (ha : A.mark a = .quote) :
    Closes (A := A) trail marks (a :: l) ↔ Resumes A trail marks l := by
  constructor
  · intro h
    cases marks with
    | nil => exact absurd h not_closes_no_marks
    | cons o marks =>
      obtain ⟨c, t, rest, hc, ht, hl, hlast, hmore⟩ := h.split
      cases ht with
      | nil =>
        obtain ⟨rfl, rfl⟩ := List.cons.inj hl
        simp [ha] at hc
      | plain hplain =>
        obtain ⟨rfl, -⟩ := List.cons.inj hl
        simp [ha] at hplain
      | @quotation q q' s u hq hq' hs hu =>
        obtain ⟨rfl, rfl⟩ := List.cons.inj hl
        exact ⟨s, q', u ++ c :: rest, hs, hq', by simp, .join hc hu hlast hmore⟩
      | group ho =>
        obtain ⟨rfl, -⟩ := List.cons.inj hl
        simp [ha] at ho
  · rintro ⟨s, q, rest, hs, hq, rfl, h⟩
    simpa using h.before (Content.quotation ha hq hs .nil)

/-- An opening mark is one more to close. -/
theorem closes_opening (ha : A.mark a = .opening) (hmarks : marks ≠ []) :
    Closes (A := A) trail marks (a :: l) ↔ Closes (A := A) trail (a :: marks) l := by
  constructor
  · intro h
    obtain ⟨o, marks, rfl⟩ := List.exists_cons_of_ne_nil hmarks
    obtain ⟨c, t, rest, hc, ht, hl, hlast, hmore⟩ := h.split
    cases ht with
    | nil =>
      obtain ⟨rfl, rfl⟩ := List.cons.inj hl
      simp [ha] at hc
    | plain hplain =>
      obtain ⟨rfl, -⟩ := List.cons.inj hl
      simp [ha] at hplain
    | quotation hq =>
      obtain ⟨rfl, -⟩ := List.cons.inj hl
      simp [ha] at hq
    | @group o' c' inner u ho hc' hinner hu =>
      obtain ⟨rfl, rfl⟩ := List.cons.inj hl
      have hsplit : (inner ++ c' :: u) ++ c :: rest = inner ++ c' :: (u ++ c :: rest) := by simp
      show Closes trail (a :: o :: marks) ((inner ++ c' :: u) ++ c :: rest)
      rw [hsplit]
      exact .more hc' hinner (.join hc hu hlast hmore)
  · intro h
    obtain ⟨c, t, rest, hc, ht, rfl, -, hmore⟩ := h.split
    simpa using (hmore hmarks).before (Content.group ha hc ht .nil)

/-- A closing mark ends the innermost group, and the text if that was the last. -/
theorem closes_closing (ha : A.mark a = .closing o) :
    Closes (A := A) trail marks (a :: l) ↔ ∃ outer, marks = o :: outer ∧
      (outer = [] → trail l) ∧ (outer ≠ [] → Closes (A := A) trail outer l) := by
  constructor
  · intro h
    cases marks with
    | nil => exact absurd h not_closes_no_marks
    | cons p marks =>
      obtain ⟨c, t, rest, hc, ht, hl, hlast, hmore⟩ := h.split
      cases ht with
      | nil =>
        obtain ⟨rfl, rfl⟩ := List.cons.inj hl
        rw [ha] at hc
        cases hc
        exact ⟨marks, rfl, hlast, hmore⟩
      | plain hplain =>
        obtain ⟨rfl, -⟩ := List.cons.inj hl
        simp [ha] at hplain
      | quotation hq =>
        obtain ⟨rfl, -⟩ := List.cons.inj hl
        simp [ha] at hq
      | group ho =>
        obtain ⟨rfl, -⟩ := List.cons.inj hl
        simp [ha] at ho
  · rintro ⟨outer, rfl, hlast, hmore⟩
    exact .join (t := []) ha .nil hlast hmore

theorem not_resumes_nil : ¬Resumes A trail marks [] := by
  rintro ⟨s, q, rest, -, -, hl, -⟩
  simp at hl

/-- The character after an escape is read over. -/
theorem resumes_escape : Resumes A trail marks (A.escape :: l) ↔ ∃ a rest, l = a :: rest ∧
    Resumes A trail marks rest := by
  constructor
  · rintro ⟨s, q, rest, hs, hq, hl, h⟩
    cases hs with
    | nil =>
      obtain ⟨rfl, -⟩ := List.cons.inj hl
      simp [A.escape_plain] at hq
    | plain hescape =>
      obtain ⟨rfl, -⟩ := List.cons.inj hl
      exact absurd rfl hescape
    | @escape b s hs =>
      obtain ⟨-, rfl⟩ := List.cons.inj hl
      exact ⟨b, s ++ q :: rest, rfl, s, q, rest, hs, hq, rfl, h⟩
  · rintro ⟨b, rest, rfl, s, q, rest', hs, hq, rfl, h⟩
    exact ⟨A.escape :: b :: s, q, rest', .escape hs, hq, rfl, h⟩

/-- A quotation mark ends the quotation. -/
theorem resumes_quote (hescape : a ≠ A.escape) (ha : A.mark a = .quote) :
    Resumes A trail marks (a :: l) ↔ Closes (A := A) trail marks l := by
  constructor
  · rintro ⟨s, q, rest, hs, -, hl, h⟩
    cases hs with
    | nil =>
      obtain ⟨rfl, rfl⟩ := List.cons.inj hl
      exact h
    | plain _ hquote =>
      obtain ⟨rfl, -⟩ := List.cons.inj hl
      exact absurd ha hquote
    | escape =>
      obtain ⟨rfl, -⟩ := List.cons.inj hl
      exact absurd rfl hescape
  · exact fun h => ⟨[], a, l, .nil, ha, rfl, h⟩

/-- Every other character of a quotation is read over. -/
theorem resumes_other (hescape : a ≠ A.escape) (ha : A.mark a ≠ .quote) :
    Resumes A trail marks (a :: l) ↔ Resumes A trail marks l := by
  constructor
  · rintro ⟨s, q, rest, hs, hq, hl, h⟩
    cases hs with
    | nil =>
      obtain ⟨rfl, -⟩ := List.cons.inj hl
      exact absurd hq ha
    | @plain b s _ _ hs =>
      obtain ⟨rfl, rfl⟩ := List.cons.inj hl
      exact ⟨s, q, rest, hs, hq, rfl, h⟩
    | escape =>
      obtain ⟨rfl, -⟩ := List.cons.inj hl
      exact absurd rfl hescape
  · rintro ⟨s, q, rest, hs, hq, rfl, h⟩
    exact ⟨a :: s, q, rest, .plain hescape ha hs, hq, rfl, h⟩

end Closes

/-! ## 4. Levels -/

/-- The beginnings of a text in two parts. -/
theorem prefix_append_cases {p l more : List α} (h : p <+: l ++ more) :
    p <+: l ∨ ∃ q, p = l ++ q ∧ q <+: more := by
  induction l generalizing p with
  | nil => exact .inr ⟨p, rfl, h⟩
  | cons a l ih =>
    rcases List.prefix_cons_iff.mp h with rfl | ⟨t, rfl, ht⟩
    · exact .inl List.nil_prefix
    · rcases ih ht with hl | ⟨q, rfl, hq⟩
      · exact .inl (List.cons_prefix_cons.mpr ⟨rfl, hl⟩)
      · exact .inr ⟨q, rfl, hq⟩

variable [DecidableEq α]

/-- The text is content, and no part from its start leaves more than `n` marks open. -/
structure Within (A : Alphabet α) (n : Nat) (l : List α) : Prop where
  content : Content A l
  level : ∀ p, p <+: l → openMarks A .outside p ≤ n

theorem Reading.next_plain {a : α} (ha : A.mark a = .plain) :
    Reading.next A .outside a = .outside := by
  rw [Reading.next, ha]

theorem Reading.next_quote {a : α} (ha : A.mark a = .quote) :
    Reading.next A .outside a = .inside := by
  rw [Reading.next, ha]

theorem Reading.next_opening {a : α} (ha : A.mark a = .opening) :
    Reading.next A .outside a = .outside := by
  rw [Reading.next, ha]

theorem Reading.next_closing {a o : α} (ha : A.mark a = .closing o) :
    Reading.next A .outside a = .outside := by
  rw [Reading.next, ha]

theorem Reading.next_end {a : α} (ha : A.mark a = .quote) :
    Reading.next A .inside a = .outside := by
  have hescape : a ≠ A.escape := by
    rintro rfl
    simp [A.escape_plain] at ha
  rw [Reading.next, if_neg hescape, ha]

theorem Reading.next_escape : Reading.next A .inside A.escape = .escaped := if_pos rfl

theorem Reading.next_other {a : α} (hescape : a ≠ A.escape) (hquote : A.mark a ≠ .quote) :
    Reading.next A .inside a = .inside := by
  rw [Reading.next, if_neg hescape]
  split
  · exact absurd ‹_› hquote
  · rfl

/-- A quoted text ends inside the quotation. -/
theorem Quoted.reading {s : List α} (h : Quoted A s) :
    Reading.after A .inside s = .inside := by
  induction h with
  | nil => rfl
  | plain hescape hquote _ ih =>
    rw [Reading.after_cons, Reading.next_other hescape hquote, ih]
  | escape _ ih => simpa [Reading.next] using ih

/-- No mark inside a quotation counts. -/
theorem openMarks_quoted {r : Reading} {s p : List α} (h : Quoted A s) (hr : r = .inside)
    (hp : p <+: s) : openMarks A r p = 0 := by
  induction h generalizing r p with
  | nil =>
    obtain rfl := List.prefix_nil.mp hp
    rfl
  | @plain a l hescape hquote _ ih =>
    rcases List.prefix_cons_iff.mp hp with rfl | ⟨t, rfl, ht⟩
    · rfl
    · rw [openMarks, hr, Reading.next_other hescape hquote, ih rfl ht]
      rfl
  | @escape a l _ ih =>
    rcases List.prefix_cons_iff.mp hp with rfl | ⟨t, rfl, ht⟩
    · rfl
    · rw [openMarks, hr, Reading.next_escape]
      rcases List.prefix_cons_iff.mp ht with rfl | ⟨u, rfl, hu⟩
      · rfl
      · rw [openMarks, Reading.next, ih rfl hu]
        rfl

/-- Content leaves no mark open, and no quotation. -/
theorem Content.closed {l : List α} (h : Content A l) :
    Reading.after A .outside l = .outside ∧ openMarks A .outside l = 0 := by
  induction h with
  | nil => exact ⟨rfl, rfl⟩
  | plain ha _ ih =>
    rw [Reading.after_cons, openMarks, Reading.next_plain ha, Reading.weight, ha]
    simpa using ih
  | @quotation q q' s l hq hq' hs _ ih =>
    have hzero : openMarks A .inside s = 0 := openMarks_quoted hs rfl (List.prefix_refl s)
    rw [Reading.after_cons, openMarks, Reading.next_quote hq, Reading.after_append,
      openMarks_append, hs.reading, hzero, Reading.after_cons, openMarks, Reading.next_end hq',
      Reading.weight, hq]
    simpa [Reading.weight] using ih
  | group ho hc _ _ ihinner ih =>
    rw [Reading.after_cons, openMarks, Reading.next_opening ho, Reading.after_append,
      openMarks_append, ihinner.1, ihinner.2, Reading.after_cons, openMarks,
      Reading.next_closing hc, Reading.weight, ho, Reading.weight, hc]
    refine ⟨ih.1, ?_⟩
    rw [ih.2]
    rfl

namespace Within

variable {n : Nat} {l : List α}

theorem mono {m : Nat} (h : Within A n l) (hnm : n ≤ m) : Within A m l :=
  ⟨h.content, fun p hp => Int.le_trans (h.level p hp) (Int.ofNat_le.mpr hnm)⟩

/-- Two texts within a bound stay within it one after the other. -/
theorem append {more : List α} (h : Within A n l) (hmore : Within A n more) :
    Within A n (l ++ more) := by
  refine ⟨h.content.append hmore.content, fun p hp => ?_⟩
  rcases prefix_append_cases hp with hl | ⟨q, rfl, hq⟩
  · exact h.level p hl
  · have hclosed := h.content.closed
    rw [openMarks_append, hclosed.1, hclosed.2, Int.zero_add]
    exact hmore.level q hq

/-- A text without marks is within every bound. -/
theorem plain (h : ∀ a ∈ l, A.mark a = .plain) : Within A n l := by
  refine ⟨.of_plain h, fun p hp => ?_⟩
  have hplain : ∀ a ∈ p, A.mark a = .plain := fun a ha => h a (hp.subset ha)
  rw [(Content.of_plain hplain).closed.2]
  exact Int.natCast_nonneg n

/-- A quotation is within every bound. -/
theorem quotation {q q' : α} {s : List α} (hq : A.mark q = .quote) (hq' : A.mark q' = .quote)
    (hs : Quoted A s) : Within A n (q :: (s ++ [q'])) := by
  refine ⟨.quotation hq hq' hs .nil, fun p hp => ?_⟩
  have hzero : openMarks A .outside p = 0 := by
    rcases List.prefix_cons_iff.mp hp with rfl | ⟨t, rfl, ht⟩
    · rfl
    · rw [openMarks, Reading.next_quote hq, Reading.weight, hq]
      rcases prefix_append_cases ht with hin | ⟨u, rfl, hu⟩
      · rw [openMarks_quoted hs rfl hin]
        rfl
      · rw [openMarks_append, openMarks_quoted hs rfl (List.prefix_refl s), hs.reading]
        rcases List.prefix_cons_iff.mp hu with rfl | ⟨v, rfl, hv⟩
        · rfl
        · obtain rfl := List.prefix_nil.mp hv
          rfl
  rw [hzero]
  exact Int.natCast_nonneg n

/-- A pair of marks around a text is one level more. -/
theorem group {o c : α} (ho : A.mark o = .opening) (hc : A.mark c = .closing o)
    (h : Within A n l) : Within A (n + 1) (o :: (l ++ [c])) := by
  refine ⟨.group ho hc h.content .nil, fun p hp => ?_⟩
  rcases List.prefix_cons_iff.mp hp with rfl | ⟨t, rfl, ht⟩
  · exact Int.natCast_nonneg _
  · rw [openMarks, Reading.next_opening ho, Reading.weight, ho]
    rcases prefix_append_cases ht with hin | ⟨u, rfl, hu⟩
    · have hlevel := h.level t hin
      push_cast
      omega
    · have hclosed := h.content.closed
      rw [openMarks_append, hclosed.1, hclosed.2]
      rcases List.prefix_cons_iff.mp hu with rfl | ⟨v, rfl, hv⟩
      · simp only [openMarks]
        omega
      · obtain rfl := List.prefix_nil.mp hv
        simp only [openMarks, Reading.weight, hc]
        omega

end Within

end TeamyBend.Library.Nested
