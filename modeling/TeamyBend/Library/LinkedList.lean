/-
# Lists threaded through their own nodes

A node of an intrusive list holds the address of the next one; a null address ends the list.
`Path` follows the links from one address to another, and a `Chain` is a path to the null address.
-/
import Mathlib.Logic.Function.Basic
import Mathlib.Data.List.Nodup

namespace TeamyBend.Library

variable {α : Type} {next next' : α → α} {null head stop a : α} {l l' : List α}

/-- The links lead from `head` through the nodes of the list to `stop`. -/
def Path (next : α → α) : α → List α → α → Prop
  | head, [], stop => head = stop
  | head, a :: l, stop => head = a ∧ Path next (next a) l stop

namespace Path

/-- A path depends on its own links only. -/
theorem congr (h : Path next head l stop) (hsame : ∀ a ∈ l, next' a = next a) :
    Path next' head l stop := by
  induction l generalizing head with
  | nil => exact h
  | cons a l ih =>
    refine ⟨h.1, ?_⟩
    rw [hsame a List.mem_cons_self]
    exact ih h.2 fun c hc => hsame c (List.mem_cons_of_mem _ hc)

theorem append {mid : α} (h : Path next head l mid) (h' : Path next mid l' stop) :
    Path next head (l ++ l') stop := by
  induction l generalizing head with
  | nil =>
    cases (show head = mid from h)
    exact h'
  | cons a l ih => exact ⟨h.1, ih h.2⟩

theorem split (h : Path next head (l ++ l') stop) :
    ∃ mid, Path next head l mid ∧ Path next mid l' stop := by
  induction l generalizing head with
  | nil => exact ⟨head, rfl, h⟩
  | cons a l ih =>
    obtain ⟨mid, hl, hl'⟩ := ih h.2
    exact ⟨mid, ⟨h.1, hl⟩, hl'⟩

end Path

/-- The links lead from `head` through the nodes of the list to the null address. -/
def Chain (next : α → α) (null head : α) (l : List α) : Prop :=
  Path next head l null ∧ null ∉ l

namespace Chain

theorem congr (h : Chain next null head l) (hsame : ∀ a ∈ l, next' a = next a) :
    Chain next' null head l :=
  ⟨h.1.congr hsame, h.2⟩

theorem eq_nil (h : Chain next null null l) : l = [] := by
  cases l with
  | nil => rfl
  | cons a l => exact absurd (h.1.1 ▸ List.mem_cons_self) h.2

/-- What a head that is not null begins. -/
theorem uncons (h : Chain next null head l) (hhead : head ≠ null) :
    ∃ rest, l = head :: rest ∧ Chain next null (next head) rest := by
  cases l with
  | nil => exact absurd h.1 hhead
  | cons a l =>
    obtain rfl := h.1.1
    exact ⟨l, rfl, h.1.2, fun hmem => h.2 (List.mem_cons_of_mem _ hmem)⟩

theorem tail (h : Chain next null head (a :: l)) : Chain next null (next a) l :=
  ⟨h.1.2, fun hmem => h.2 (List.mem_cons_of_mem _ hmem)⟩

/-- A chain is told by its head. -/
theorem unique (h : Chain next null head l) (h' : Chain next null head l') : l = l' := by
  induction l generalizing head l' with
  | nil =>
    cases (show head = null from h.1)
    exact h'.eq_nil.symm
  | cons a l ih =>
    have hne : a ≠ null := fun hnull => h.2 (hnull ▸ List.mem_cons_self)
    obtain rfl := h.1.1
    obtain ⟨rest, rfl, hrest⟩ := h'.uncons hne
    rw [ih h.tail hrest]

/-- A list that ends does not come back to a node. -/
theorem nodup (h : Chain next null head l) : l.Nodup := by
  induction l generalizing head with
  | nil => exact .nil
  | cons a l ih =>
    refine List.nodup_cons.2 ⟨fun hmem => ?_, ih h.tail⟩
    -- The list from `a` on is then also the shorter list from its second occurrence on.
    obtain ⟨before, after, rfl⟩ := List.append_of_mem hmem
    obtain ⟨mid, hbefore, hafter⟩ := h.tail.1.split
    obtain rfl := hafter.1
    have hshort : Chain next null mid (mid :: after) :=
      ⟨hafter, fun hnull => h.tail.2 (List.mem_append_right _ hnull)⟩
    have hlong : Chain next null mid (mid :: (before ++ mid :: after)) :=
      ⟨⟨rfl, h.1.2⟩, h.2⟩
    have := congrArg List.length (hlong.unique hshort)
    simp only [List.length_cons, List.length_append] at this
    omega

/-- A node in front. -/
theorem push [DecidableEq α] (h : Chain next null head l) (hnull : a ≠ null) (hfresh : a ∉ l) :
    Chain (Function.update next a head) null a (a :: l) := by
  refine ⟨⟨rfl, ?_⟩, by simp [hnull.symm, h.2]⟩
  rw [Function.update_self]
  refine h.1.congr fun c hc => Function.update_of_ne ?_ _ _
  rintro rfl
  exact hfresh hc

end Chain

end TeamyBend.Library
