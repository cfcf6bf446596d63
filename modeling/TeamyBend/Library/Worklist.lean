/-
# Searching a graph with a work list

A search is done with some nodes and has still to look at others.  It looks at one of them, and
what that node leads to is looked at later, unless it is known already.  Where nothing is left to
look at, the search is done with exactly the nodes that are reachable from where it started
(`Search.done_iff`).

It does not matter in which order the nodes are looked at, whether one is put on the list twice, or
whether a node counts as known when it is put on the list or when it is taken off.
-/
import Mathlib.Logic.Relation

namespace TeamyBend.Library

variable {α : Type}

/-- There is a path to the node from one of the starts. -/
def Reaches (edge : α → α → Prop) (start : α → Prop) (x : α) : Prop :=
  ∃ s, start s ∧ Relation.ReflTransGen edge s x

section Reaches

variable {edge : α → α → Prop} {start : α → Prop} {x y : α}

theorem Reaches.of_start (h : start x) : Reaches edge start x := ⟨x, h, .refl⟩

theorem Reaches.tail (h : Reaches edge start x) (hxy : edge x y) : Reaches edge start y := by
  obtain ⟨s, hs, hpath⟩ := h
  exact ⟨s, hs, hpath.tail hxy⟩

/-- What holds at the starts and is kept along the edges holds of every node that is reached. -/
theorem Reaches.induct {P : α → Prop} (h : Reaches edge start x) (hstart : ∀ s, start s → P s)
    (hedge : ∀ x y, P x → edge x y → P y) : P x := by
  obtain ⟨s, hs, hpath⟩ := h
  induction hpath with
  | refl => exact hstart s hs
  | tail _ hxy ih => exact hedge _ _ ih hxy

end Reaches

/-- Where a search stands: the nodes that were looked at, and the ones that are left. -/
structure Search (edge : α → α → Prop) (start done left : α → Prop) : Prop where
  sound : ∀ x, done x ∨ left x → Reaches edge start x
  started : ∀ x, start x → done x ∨ left x
  closed : ∀ x, done x → ∀ y, edge x y → done y ∨ left y

namespace Search

variable {edge : α → α → Prop} {start done left done' left' : α → Prop} {x : α}

/-- The starts are left at first. -/
theorem begin (hdone : ∀ x, ¬done x) (hleft : ∀ x, left x ↔ start x) :
    Search edge start done left where
  sound x hx := .of_start ((hleft x).1 (hx.resolve_left (hdone x)))
  started x hx := .inr ((hleft x).2 hx)
  closed x hx := absurd hx (hdone x)

/-- The node is looked at, and what it leads to is left. -/
theorem look (h : Search edge start done left) (hx : left x)
    (hdone : ∀ y, done' y ↔ done y ∨ y = x)
    (hleft : ∀ y, (done' y ∨ left' y) ↔ (done y ∨ left y) ∨ edge x y) :
    Search edge start done' left' where
  sound y hy := by
    rcases (hleft y).1 hy with hy | hxy
    · exact h.sound y hy
    · exact (h.sound x (.inr hx)).tail hxy
  started y hy := (hleft y).2 (.inl (h.started y hy))
  closed y hy z hyz := by
    rcases (hdone y).1 hy with hy | rfl
    · exact (hleft z).2 (.inl (h.closed y hy z hyz))
    · exact (hleft z).2 (.inr hyz)

/-- A node that was looked at before is taken off. -/
theorem skip (h : Search edge start done left)
    (hleft : ∀ y, (done y ∨ left' y) ↔ (done y ∨ left y)) : Search edge start done left' where
  sound y hy := h.sound y ((hleft y).1 hy)
  started y hy := (hleft y).2 (h.started y hy)
  closed y hy z hyz := (hleft z).2 (h.closed y hy z hyz)

/-- **A search that has nothing left has found what is reachable.** -/
theorem done_iff (h : Search edge start done left) (hleft : ∀ x, ¬left x) :
    done x ↔ Reaches edge start x := by
  refine ⟨fun hx => h.sound x (.inl hx), fun hx => hx.induct ?_ ?_⟩
  · exact fun s hs => (h.started s hs).resolve_right (hleft s)
  · exact fun x y hx hxy => (h.closed x hx y hxy).resolve_right (hleft y)

end Search

end TeamyBend.Library
