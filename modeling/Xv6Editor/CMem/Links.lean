import Mathlib.Data.List.Basic

/-!
# Linked lists in memory

A memory gives every cell `x` a successor `next x`.  `Links next last xs` says that the cells `xs`
are linked one to the next and the last of them to `last`; with `last` the first of the cells the
list is closed to a ring.
-/

namespace Xv6Editor

variable {α : Type*} {next next' : α → α} {last x : α} {xs ys : List α}

/-- Each cell of `xs` is linked to the next one, and the last to `last`. -/
def Links (next : α → α) (last : α) : List α → Prop
  | [] => True
  | x :: xs => next x = xs.headD last ∧ Links next last xs

@[simp] theorem links_nil : Links next last [] := trivial

@[simp] theorem links_cons :
    Links next last (x :: xs) ↔ next x = xs.headD last ∧ Links next last xs :=
  Iff.rfl

theorem headD_append (xs ys : List α) (d : α) : (xs ++ ys).headD d = xs.headD (ys.headD d) := by
  cases xs <;> rfl

/-- The first part of a linked list leads to the second. -/
theorem links_append :
    Links next last (xs ++ ys) ↔ Links next (ys.headD last) xs ∧ Links next last ys := by
  induction xs with
  | nil => simp
  | cons x xs ih => simp only [List.cons_append, links_cons, headD_append, ih, and_assoc]

/-- Links depend on the cells of the list only. -/
theorem Links.congr (h : Links next last xs) (hag : ∀ x ∈ xs, next' x = next x) :
    Links next' last xs := by
  induction xs with
  | nil => trivial
  | cons x xs ih =>
    obtain ⟨hx, hxs⟩ := links_cons.1 h
    have hag' : ∀ z ∈ xs, next' z = next z := fun z hz => hag z (List.mem_cons_of_mem _ hz)
    exact links_cons.2 ⟨(hag x List.mem_cons_self).trans hx, ih hxs hag'⟩

end Xv6Editor
