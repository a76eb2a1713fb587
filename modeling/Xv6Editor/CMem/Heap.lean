import Mathlib.Data.List.Nodup
import Mathlib.Logic.Function.Basic

/-!
# A heap of blocks

Blocks of one type `β` are handed out by `malloc`, overwritten in place and released by `free`.
A pointer is the number of its block; `NULL` is not a pointer, so a C pointer is an
`Option Ptr`.

* `malloc` always succeeds and returns a block that is not in use.  What it finds in that block
  is the heap's `junk`, an arbitrary function: memory is never assumed to be cleared.
* `store` and `free` are partial: they are undefined on a block that is not in use, so that a
  use after `free` cannot go unnoticed.
* No block from `next` on is in use (`unused`), which is a field of the heap and holds of every
  heap that can be built.
-/

namespace Xv6Editor

/-- A pointer: the number of a block. -/
abbrev Ptr := ℕ

/-- A heap of blocks. -/
structure Heap (β : Type*) where
  /-- The contents of the blocks in use. -/
  get : ℕ → Option β
  /-- The next block to hand out. -/
  next : ℕ
  /-- What `malloc` finds in the blocks it hands out. -/
  junk : ℕ → β
  /-- No block from `next` on is in use. -/
  unused : ∀ p, next ≤ p → get p = none

namespace Heap

variable {β : Type*}

/-- The heap before the first allocation. -/
def empty (junk : ℕ → β) : Heap β := ⟨fun _ => none, 0, junk, fun _ _ => rfl⟩

/-- Hand out a block. -/
def malloc (h : Heap β) : Ptr × Heap β :=
  (h.next,
   { get := Function.update h.get h.next (some (h.junk h.next))
     next := h.next + 1
     junk := h.junk
     unused := fun p hp => by
       rw [Function.update_of_ne (by omega)]
       exact h.unused p (by omega) })

theorem lt_next {h : Heap β} {p : ℕ} (hp : (h.get p).isSome) : p < h.next := by
  by_contra hc
  rw [h.unused p (by omega)] at hp
  cases hp

/-- Overwrite a block in use. -/
def store (h : Heap β) (p : Ptr) (b : β) : Option (Heap β) :=
  if hp : (h.get p).isSome then
    some
      { get := Function.update h.get p (some b)
        next := h.next
        junk := h.junk
        unused := fun q hq => by
          have hlt := lt_next hp
          rw [Function.update_of_ne (Nat.ne_of_gt (Nat.lt_of_lt_of_le hlt hq))]
          exact h.unused q hq }
  else none

/-- Release a block in use. -/
def free (h : Heap β) (p : Ptr) : Option (Heap β) :=
  if (h.get p).isSome then
    some
      { get := Function.update h.get p none
        next := h.next
        junk := h.junk
        unused := fun q hq => by
          by_cases hpq : q = p
          · rw [hpq, Function.update_self]
          · rw [Function.update_of_ne hpq]
            exact h.unused q hq }
  else none

variable {h h' : Heap β} {p q : Ptr} {b b' : β}

@[simp] theorem get_malloc_self : h.malloc.2.get h.malloc.1 = some (h.junk h.next) :=
  Function.update_self ..

theorem get_malloc_of_isSome (hp : (h.get p).isSome) : h.malloc.2.get p = h.get p :=
  Function.update_of_ne (Nat.ne_of_lt (lt_next hp)) ..

theorem malloc_ne (hp : (h.get p).isSome) : p ≠ h.malloc.1 := Nat.ne_of_lt (lt_next hp)

theorem exists_store (hp : h.get p = some b) (b' : β) : ∃ h', h.store p b' = some h' :=
  ⟨_, dif_pos (by simp [hp])⟩

theorem get_store_self (hs : h.store p b = some h') : h'.get p = some b := by
  unfold store at hs
  split_ifs at hs
  cases hs
  exact Function.update_self ..

theorem get_store_of_ne (hs : h.store p b = some h') (hq : q ≠ p) : h'.get q = h.get q := by
  unfold store at hs
  split_ifs at hs
  cases hs
  exact Function.update_of_ne hq ..

theorem next_store (hs : h.store p b = some h') : h'.next = h.next := by
  unfold store at hs
  split_ifs at hs
  cases hs
  rfl

theorem junk_store (hs : h.store p b = some h') : h'.junk = h.junk := by
  unfold store at hs
  split_ifs at hs
  cases hs
  rfl

theorem exists_free (hp : h.get p = some b) : ∃ h', h.free p = some h' :=
  ⟨_, if_pos (by simp [hp])⟩

theorem get_free_self (hs : h.free p = some h') : h'.get p = none := by
  unfold free at hs
  split_ifs at hs
  cases hs
  exact Function.update_self ..

theorem get_free_of_ne (hs : h.free p = some h') (hq : q ≠ p) : h'.get q = h.get q := by
  unfold free at hs
  split_ifs at hs
  cases hs
  exact Function.update_of_ne hq ..

theorem next_free (hs : h.free p = some h') : h'.next = h.next := by
  unfold free at hs
  split_ifs at hs
  cases hs
  rfl

theorem junk_free (hs : h.free p = some h') : h'.junk = h.junk := by
  unfold free at hs
  split_ifs at hs
  cases hs
  rfl

/-! ### Sequences of blocks

`Holds R h ps xs` says that the pointers `ps` are in use and that the block behind the `i`-th of
them stands for `xs[i]` in the sense of `R`.  The lemmas say what one heap operation does to such
a sequence. -/

variable {α : Type*} {R : β → α → Prop} {ps : List Ptr} {xs : List α} {x : α}

/-- The blocks behind `ps` stand for `xs`, one each. -/
def Holds (R : β → α → Prop) (h : Heap β) (ps : List Ptr) (xs : List α) : Prop :=
  ps.length = xs.length ∧
    ∀ (i : ℕ) (p : Ptr) (x : α), ps[i]? = some p → xs[i]? = some x →
      ∃ b, h.get p = some b ∧ R b x

theorem Holds.exists_block (H : Holds R h ps xs) {i : ℕ} (hi : ps[i]? = some p) :
    ∃ x b, xs[i]? = some x ∧ h.get p = some b ∧ R b x := by
  obtain ⟨hlt, -⟩ := List.getElem?_eq_some_iff.1 hi
  rw [H.1] at hlt
  obtain ⟨b, hb⟩ := H.2 i p xs[i] hi (List.getElem?_eq_getElem hlt)
  exact ⟨xs[i], b, List.getElem?_eq_getElem hlt, hb⟩

theorem Holds.isSome (H : Holds R h ps xs) (hp : p ∈ ps) : (h.get p).isSome := by
  obtain ⟨i, hi⟩ := List.mem_iff_getElem?.1 hp
  obtain ⟨x, b, -, hb, -⟩ := H.exists_block hi
  simp [hb]

/-- A sequence depends on its own blocks only. -/
theorem Holds.congr (H : Holds R h ps xs) (hag : ∀ p ∈ ps, h'.get p = h.get p) :
    Holds R h' ps xs := by
  refine ⟨H.1, fun i p x hp hx => ?_⟩
  rw [hag p (List.mem_of_getElem? hp)]
  exact H.2 i p x hp hx

theorem Holds.malloc (H : Holds R h ps xs) : Holds R h.malloc.2 ps xs :=
  H.congr fun _ hp => get_malloc_of_isSome (H.isSome hp)

/-- Storing outside the sequence. -/
theorem Holds.store_of_notMem (H : Holds R h ps xs) (hp : p ∉ ps)
    (hs : h.store p b = some h') : Holds R h' ps xs :=
  H.congr fun _ hq => get_store_of_ne hs (ne_of_mem_of_not_mem hq hp)

/-- Storing into the `i`-th block of a sequence without repetitions. -/
theorem Holds.store (H : Holds R h ps xs) (hnd : ps.Nodup) {i : ℕ} (hi : ps[i]? = some p)
    (hs : h.store p b = some h') (hR : R b x) : Holds R h' ps (xs.set i x) := by
  refine ⟨by rw [List.length_set, H.1], fun j q y hq hy => ?_⟩
  obtain ⟨hlt, -⟩ := List.getElem?_eq_some_iff.1 hi
  by_cases hij : i = j
  · subst hij
    rw [List.getElem?_set_self (H.1 ▸ hlt)] at hy
    rw [hi] at hq
    cases hq
    cases hy
    exact ⟨b, get_store_self hs, hR⟩
  · rw [List.getElem?_set_ne hij] at hy
    have hne : q ≠ p := by
      rintro rfl
      exact hij ((List.getElem?_inj hlt hnd).1 (hi.trans hq.symm))
    rw [get_store_of_ne hs hne]
    exact H.2 j q y hq hy

/-- Another block in the `i`-th place. -/
theorem Holds.set (H : Holds R h ps xs) (hp : h.get p = some b) (hR : R b x) (i : ℕ) :
    Holds R h (ps.set i p) (xs.set i x) := by
  refine ⟨by rw [List.length_set, List.length_set, H.1], fun j q y hq hy => ?_⟩
  by_cases hij : i = j
  · subst hij
    rw [List.getElem?_set, if_pos rfl] at hq hy
    split_ifs at hq hy
    cases hq
    cases hy
    exact ⟨b, hp, hR⟩
  · rw [List.getElem?_set_ne hij] at hq hy
    exact H.2 j q y hq hy

/-- One more block at the end. -/
theorem Holds.concat (H : Holds R h ps xs) (hp : h.get p = some b) (hR : R b x) :
    Holds R h (ps ++ [p]) (xs ++ [x]) := by
  refine ⟨by simp [H.1], fun j q y hq hy => ?_⟩
  rcases Nat.lt_or_ge j ps.length with hj | hj
  · rw [List.getElem?_append_left hj] at hq
    rw [List.getElem?_append_left (H.1 ▸ hj)] at hy
    exact H.2 j q y hq hy
  · rw [List.getElem?_append_right hj] at hq
    rw [List.getElem?_append_right (H.1 ▸ hj), ← H.1] at hy
    rw [List.getElem?_singleton] at hq hy
    split_ifs at hq hy
    cases hq
    cases hy
    exact ⟨b, hp, hR⟩

/-- Without the last block. -/
theorem Holds.dropLast (H : Holds R h ps xs) : Holds R h ps.dropLast xs.dropLast := by
  refine ⟨by simp [H.1], fun j q y hq hy => ?_⟩
  obtain ⟨hj, -⟩ := List.getElem?_eq_some_iff.1 hq
  rw [List.length_dropLast] at hj
  rw [List.dropLast_eq_take, List.getElem?_take_of_lt (by omega)] at hq
  rw [List.dropLast_eq_take, List.getElem?_take_of_lt (H.1 ▸ hj)] at hy
  exact H.2 j q y hq hy

end Heap

end Xv6Editor
