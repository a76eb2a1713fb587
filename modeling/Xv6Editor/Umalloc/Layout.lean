import Mathlib.Data.List.Nodup
import Mathlib.Data.List.Count
import Mathlib.Data.List.Perm.Subperm
import Mathlib.Data.List.TakeWhile
import Mathlib.Algebra.Order.Group.Nat

/-!
# The layout of a heap

A heap is a range of units, and every unit belongs to exactly one block, which is free or in use.
This module is about blocks as segments of addresses only: what a block holds does not matter.

* `Layout lo hi ns live` : the segments `ns` (free) and `live` (in use) tile the units from `lo`
  to `hi`; the free ones are sorted, and no two of them touch.
* `glue` : put a segment in front of a sorted list, as one with the first of the list if the two
  touch.
* `Layout.free`, `Layout.take`, `Layout.split`, `Layout.grow` : releasing a segment, handing one
  out, handing out the end of one and extending the range keep the layout.
* `Layout.eq_of_live_nil` : when nothing is in use the free list is one segment.

The first free segment is the `anchor`, which has no units.
-/

namespace Xv6Editor

namespace Umalloc

/-- `size` units from `addr` on. -/
@[ext] structure Seg where
  /-- The first unit. -/
  addr : ℕ
  /-- The number of units. -/
  size : ℕ
deriving Repr, DecidableEq

namespace Seg

/-- The first unit after the segment. -/
def stop (x : Seg) : ℕ := x.addr + x.size

/-- The unit `u` is one of the segment's. -/
def Has (x : Seg) (u : ℕ) : Prop := x.addr ≤ u ∧ u < x.stop

instance (x : Seg) (u : ℕ) : Decidable (x.Has u) := inferInstanceAs (Decidable (_ ∧ _))

/-- `x` ends before `y` begins, with a unit between the two. -/
def Before (x y : Seg) : Prop := x.stop < y.addr

theorem addr_le_stop (x : Seg) : x.addr ≤ x.stop := Nat.le_add_right ..

theorem has_addr {x : Seg} (h : 0 < x.size) : x.Has x.addr :=
  ⟨le_rfl, Nat.lt_add_of_pos_right h⟩

end Seg

/-- The segment of no units that the free list begins with. -/
def anchor : Seg := ⟨0, 0⟩

/-- How many of the segments have the unit `u`. -/
def cover (u : ℕ) (xs : List Seg) : ℕ := xs.countP (fun x => decide (x.Has u))

section cover

variable {u : ℕ} {x : Seg} {xs ys : List Seg}

@[simp] theorem cover_nil : cover u [] = 0 := rfl

@[simp] theorem cover_append : cover u (xs ++ ys) = cover u xs + cover u ys :=
  List.countP_append

@[simp] theorem cover_cons :
    cover u (x :: xs) = (if x.Has u then 1 else 0) + cover u xs := by
  unfold cover
  rw [List.countP_cons, Nat.add_comm]
  simp only [decide_eq_true_eq]

theorem cover_cut (a m n : ℕ) (xs : List Seg) :
    cover u (⟨a, m + n⟩ :: xs) = cover u (⟨a, m⟩ :: ⟨a + m, n⟩ :: xs) := by
  have hiff : Seg.Has ⟨a, m + n⟩ u ↔ Seg.Has ⟨a, m⟩ u ∨ Seg.Has ⟨a + m, n⟩ u := by
    simp only [Seg.Has, Seg.stop]
    omega
  have hnot : Seg.Has ⟨a, m⟩ u → ¬ Seg.Has ⟨a + m, n⟩ u := by
    simp only [Seg.Has, Seg.stop]
    omega
  by_cases h₁ : Seg.Has ⟨a, m⟩ u
  · simp [h₁, hnot h₁, hiff.2 (.inl h₁)]
  · by_cases h₂ : Seg.Has ⟨a + m, n⟩ u
    · simp [h₁, h₂, hiff.2 (.inr h₂)]
    · simp [h₁, h₂, hiff]

theorem cover_perm (h : xs.Perm ys) : cover u xs = cover u ys := h.countP_eq _

theorem cover_pos (hx : x ∈ xs) (hu : x.Has u) : 0 < cover u xs :=
  List.countP_pos_iff.2 ⟨x, hx, by simpa using hu⟩

end cover

theorem addr_ne_of_sorted {M R : List Seg} {q : Seg} (hs : (M ++ q :: R).Pairwise Seg.Before) :
    ∀ x ∈ M ++ R, x.addr ≠ q.addr := by
  obtain ⟨-, hqR, hMq⟩ := List.pairwise_append.1 hs
  intro x hx
  rcases List.mem_append.1 hx with hx | hx
  · exact (x.addr_le_stop.trans_lt (hMq x hx q List.mem_cons_self)).ne
  · exact (q.addr_le_stop.trans_lt ((List.pairwise_cons.1 hqR).1 x hx)).ne'

/-! ### Gluing -/

/-- `x` in front of `xs`, as one segment with the first of `xs` if the two touch. -/
def glue (x : Seg) : List Seg → List Seg
  | [] => [x]
  | y :: ys => if x.stop = y.addr then ⟨x.addr, x.size + y.size⟩ :: ys else x :: y :: ys

section glue

variable {u : ℕ} {x y z : Seg} {xs ys : List Seg}

theorem glue_of_touch (h : x.stop = y.addr) :
    glue x (y :: ys) = ⟨x.addr, x.size + y.size⟩ :: ys :=
  if_pos h

theorem glue_of_ne (h : x.stop ≠ y.addr) : glue x (y :: ys) = x :: y :: ys := if_neg h

theorem exists_glue (x : Seg) (xs : List Seg) :
    ∃ z ys, glue x xs = z :: ys ∧ z.addr = x.addr ∧ x.size ≤ z.size ∧ ys ⊆ xs := by
  cases xs with
  | nil => exact ⟨x, [], rfl, rfl, le_rfl, List.Subset.refl _⟩
  | cons y ys =>
    by_cases h : x.stop = y.addr
    · exact ⟨_, ys, glue_of_touch h, rfl, Nat.le_add_right .., List.subset_cons_self ..⟩
    · exact ⟨x, y :: ys, glue_of_ne h, rfl, le_rfl, List.Subset.refl _⟩

theorem of_mem_glue (hz : z ∈ glue x xs) : (z.addr = x.addr ∧ x.size ≤ z.size) ∨ z ∈ xs := by
  obtain ⟨w, ys, hw, ha, hs, hsub⟩ := exists_glue x xs
  rw [hw] at hz
  rcases List.mem_cons.1 hz with rfl | h
  · exact .inl ⟨ha, hs⟩
  · exact .inr (hsub h)

/-- No segment gets smaller. -/
theorem exists_le_of_mem_glue (hy : y ∈ x :: xs) : ∃ z ∈ glue x xs, y.size ≤ z.size := by
  cases xs with
  | nil => exact ⟨y, hy, le_rfl⟩
  | cons w ys =>
    by_cases h : x.stop = w.addr
    · rw [glue_of_touch h]
      rcases List.mem_cons.1 hy with rfl | hy
      · exact ⟨_, List.mem_cons_self, Nat.le_add_right ..⟩
      · rcases List.mem_cons.1 hy with rfl | hy
        · exact ⟨_, List.mem_cons_self, Nat.le_add_left ..⟩
        · exact ⟨y, List.mem_cons_of_mem _ hy, le_rfl⟩
    · rw [glue_of_ne h]
      exact ⟨y, hy, le_rfl⟩

/-- Gluing moves no unit. -/
theorem cover_glue : cover u (glue x xs) = cover u (x :: xs) := by
  cases xs with
  | nil => rfl
  | cons y ys =>
    by_cases h : x.stop = y.addr
    · rw [glue_of_touch h, cover_cut]
      exact congrArg (fun a => cover u (x :: ⟨a, y.size⟩ :: ys)) h
    · rw [glue_of_ne h]

theorem sorted_glue (hs : xs.Pairwise Seg.Before) (hx : ∀ y ∈ xs, x.stop ≤ y.addr) :
    (glue x xs).Pairwise Seg.Before := by
  cases xs with
  | nil => exact List.pairwise_singleton ..
  | cons y ys =>
    obtain ⟨hy, hys⟩ := List.pairwise_cons.1 hs
    by_cases h : x.stop = y.addr
    · rw [glue_of_touch h]
      refine List.pairwise_cons.2 ⟨fun z hz => ?_, hys⟩
      have hyz := hy z hz
      simp only [Seg.Before, Seg.stop] at h hyz ⊢
      omega
    · rw [glue_of_ne h]
      refine List.pairwise_cons.2 ⟨fun z hz => ?_, hs⟩
      have hxy : x.stop < y.addr := lt_of_le_of_ne (hx y List.mem_cons_self) h
      rcases List.mem_cons.1 hz with rfl | hz
      · exact hxy
      · exact lt_of_lt_of_le hxy (le_trans y.addr_le_stop (le_of_lt (hy z hz)))

end glue

/-! ### Layouts -/

/-- The segments `ns`, free, and `live`, in use, tile the units from `lo` to `hi`. -/
structure Layout (lo hi : ℕ) (ns live : List Seg) : Prop where
  /-- The heap is above the anchor. -/
  lo_pos : 0 < lo
  /-- The range is one. -/
  lo_le : lo ≤ hi
  /-- The free list begins with the anchor. -/
  head : ns.head? = some anchor
  /-- The free segments are sorted, and no two of them touch. -/
  sorted : ns.Pairwise Seg.Before
  /-- No free segment but the anchor is empty. -/
  pos : ∀ x ∈ ns, x.size = 0 → x.addr = 0
  /-- Every unit of the range is one segment's, and no other unit is. -/
  tiles : ∀ u, cover u (ns ++ live) = if lo ≤ u ∧ u < hi then 1 else 0
  /-- No segment in use is empty. -/
  live_pos : ∀ x ∈ live, 0 < x.size

namespace Layout

variable {lo hi n : ℕ} {ns live live' M R : List Seg} {p q x y : Seg} {u : ℕ}

theorem perm (h : Layout lo hi ns live) (hp : live.Perm live') : Layout lo hi ns live' where
  lo_pos := h.lo_pos
  lo_le := h.lo_le
  head := h.head
  sorted := h.sorted
  pos := h.pos
  tiles u := (cover_perm (hp.append_left ns).symm).trans (h.tiles u)
  live_pos x hx := h.live_pos x (hp.mem_iff.2 hx)

theorem inside (h : Layout lo hi ns live) (hx : x ∈ ns ++ live) (hp : 0 < x.size) :
    lo ≤ x.addr ∧ x.stop ≤ hi := by
  have hin : ∀ v, x.Has v → lo ≤ v ∧ v < hi := by
    intro v hv
    have := cover_pos hx hv
    rw [h.tiles v] at this
    split_ifs at this with hc
    · exact hc
    · omega
  have hlast : x.Has (x.stop - 1) := ⟨by unfold Seg.stop; omega, by unfold Seg.stop; omega⟩
  have hstop := (hin _ hlast).2
  exact ⟨(hin _ (Seg.has_addr hp)).1, by unfold Seg.stop at hstop ⊢; omega⟩

theorem addr_eq_zero (h : Layout lo hi ns live) (hx : x ∈ ns ++ live) (h0 : x.size = 0) :
    x.addr = 0 := by
  rcases List.mem_append.1 hx with hx | hx
  · exact h.pos x hx h0
  · have := h.live_pos x hx
    omega

theorem stop_le (h : Layout lo hi ns live) (hx : x ∈ ns ++ live) : x.stop ≤ hi := by
  rcases Nat.eq_zero_or_pos x.size with h0 | hp
  · have := h.addr_eq_zero hx h0
    unfold Seg.stop
    omega
  · exact (h.inside hx hp).2

theorem addr_lt (h : Layout lo hi ns live) (hx : x ∈ ns ++ live) : x.addr < hi := by
  rcases Nat.eq_zero_or_pos x.size with h0 | hp
  · have h₁ := h.addr_eq_zero hx h0
    have h₂ := h.lo_pos
    have h₃ := h.lo_le
    omega
  · have := (h.inside hx hp).2
    unfold Seg.stop at this
    omega

theorem not_has (h : Layout lo hi ns live) (hy : y ∈ ns) (hx : x ∈ live) (hu : x.Has u) :
    ¬ y.Has u := by
  intro hyu
  have h₁ := cover_pos hy hyu
  have h₂ := cover_pos hx hu
  have h₃ := h.tiles u
  rw [cover_append] at h₃
  split_ifs at h₃ <;> omega

theorem not_has_live (h : Layout lo hi ns (x :: live)) (hy : y ∈ live) (hu : x.Has u) :
    ¬ y.Has u := by
  intro hyu
  have h₁ := cover_pos hy hyu
  have h₂ := h.tiles u
  rw [cover_append, cover_cons, if_pos hu] at h₂
  split_ifs at h₂ <;> omega

theorem addr_ne (h : Layout lo hi ns live) (hy : y ∈ ns) (hx : x ∈ live) (hu : x.Has u) :
    y.addr ≠ u := by
  rintro rfl
  rcases Nat.eq_zero_or_pos y.size with h0 | hp
  · have h₁ := (h.inside (List.mem_append_right _ hx) (h.live_pos x hx)).1
    have h₂ := h.lo_pos
    have h₃ := hu.1
    rw [h.pos y hy h0] at h₃
    omega
  · exact h.not_has hy hx hu (Seg.has_addr hp)

/-- A free segment that begins before one in use also ends before it. -/
theorem stop_le_addr (h : Layout lo hi ns live) (hy : y ∈ ns) (hx : x ∈ live)
    (hlt : y.addr < x.addr) : y.stop ≤ x.addr := by
  by_contra hc
  exact h.not_has hy hx (Seg.has_addr (h.live_pos x hx)) ⟨le_of_lt hlt, by omega⟩

/-- A free segment that begins after one in use begins after its end. -/
theorem stop_le_addr_of_lt (h : Layout lo hi ns live) (hy : y ∈ ns) (hx : x ∈ live)
    (hlt : x.addr < y.addr) : x.stop ≤ y.addr := by
  by_contra hc
  exact h.addr_ne hy hx ⟨le_of_lt hlt, by omega⟩ rfl

/-- There are not more free segments than units below the end of the range. -/
theorem length_le (h : Layout lo hi ns live) : ns.length ≤ hi := by
  have hnd : (ns.map Seg.addr).Nodup := by
    refine (List.pairwise_map.2 (h.sorted.imp fun {x y} hxy => ?_))
    have := x.addr_le_stop
    unfold Seg.Before at hxy
    omega
  have hsub : ns.map Seg.addr ⊆ List.range hi := by
    intro a ha
    obtain ⟨x, hx, rfl⟩ := List.mem_map.1 ha
    exact List.mem_range.2 (h.addr_lt (List.mem_append_left _ hx))
  simpa using (List.subperm_of_subset hnd hsub).length_le

theorem exists_cons (h : Layout lo hi ns live) : ∃ fs, ns = anchor :: fs := by
  have hh := h.head
  cases ns with
  | nil => cases hh
  | cons a fs =>
    rw [List.head?_cons, Option.some_inj] at hh
    exact ⟨fs, by rw [hh]⟩

/-- The place of a segment in use among the free ones. -/
theorem exists_place (h : Layout lo hi ns live) (hx : x ∈ live) :
    ∃ M p R, ns = M ++ p :: R ∧ (∀ y ∈ M ++ [p], y.addr < x.addr) ∧ ∀ y ∈ R, x.addr < y.addr := by
  have hpos := (h.inside (List.mem_append_right _ hx) (h.live_pos x hx)).1
  have hlo := h.lo_pos
  obtain ⟨fs, rfl⟩ := h.exists_cons
  have hanchor : anchor.addr < x.addr := lt_of_lt_of_le hlo hpos
  -- the segments below `x` are the first ones, the anchor among them
  have hne : (anchor :: fs).takeWhile (·.addr < x.addr) ≠ [] := by simp [hanchor]
  have hsplit := List.takeWhile_append_dropWhile (p := (·.addr < x.addr)) (l := anchor :: fs)
  obtain ⟨M, p, hM⟩ : ∃ M p, (anchor :: fs).takeWhile (·.addr < x.addr) = M ++ [p] :=
    ⟨_, _, (List.dropLast_append_getLast hne).symm⟩
  refine ⟨M, p, (anchor :: fs).dropWhile (·.addr < x.addr), ?_, ?_, ?_⟩
  · rw [List.append_cons M p, ← hM, hsplit]
  · intro y hy
    rw [← hM] at hy
    simpa using List.mem_takeWhile_imp hy
  · intro y hy
    have hmem : y ∈ anchor :: fs := (List.dropWhile_sublist _).subset hy
    have hne := h.addr_ne hmem hx (Seg.has_addr (h.live_pos x hx))
    have hle : x.addr ≤ y.addr := by
      have hs := h.sorted.sublist (List.dropWhile_sublist (·.addr < x.addr))
      have hh := List.head?_dropWhile_not (·.addr < x.addr) (anchor :: fs)
      generalize (anchor :: fs).dropWhile (·.addr < x.addr) = R at hy hs hh
      cases R with
      | nil => cases hy
      | cons r R =>
        have hr : x.addr ≤ r.addr := by simpa using hh
        rcases List.mem_cons.1 hy with rfl | hy
        · exact hr
        · exact hr.trans (r.addr_le_stop.trans (le_of_lt ((List.pairwise_cons.1 hs).1 y hy)))
    exact lt_of_le_of_ne hle (Ne.symm hne)

/-- Releasing `x`, whose place is after `p`. -/
theorem free (h : Layout lo hi (M ++ p :: R) (x :: live)) (hM : ∀ y ∈ M ++ [p], y.addr < x.addr)
    (hR : ∀ y ∈ R, x.addr < y.addr) : Layout lo hi (M ++ glue p (glue x R)) live where
  lo_pos := h.lo_pos
  lo_le := h.lo_le
  head := by
    have hh := h.head
    cases M with
    | cons m M => exact hh
    | nil =>
      rw [List.nil_append, List.head?_cons, Option.some_inj] at hh
      subst hh
      -- the anchor touches nothing
      obtain ⟨z, ys, hz, ha, -⟩ := exists_glue x R
      have hlt : anchor.addr < x.addr := hM anchor List.mem_cons_self
      rw [List.nil_append, hz, glue_of_ne (by rw [ha]; exact Nat.ne_of_lt hlt)]
      rfl
  sorted := by
    obtain ⟨hsM, hsR, hMR⟩ := List.pairwise_append.1 h.sorted
    obtain ⟨hpR, hsR⟩ := List.pairwise_cons.1 hsR
    have hx : x ∈ x :: live := List.mem_cons_self
    have hxR : ∀ y ∈ R, x.stop ≤ y.addr := fun y hy =>
      h.stop_le_addr_of_lt (by simp [hy]) hx (hR y hy)
    have hpx : p.stop ≤ x.addr := h.stop_le_addr (by simp) hx (hM p (by simp))
    refine List.pairwise_append.2 ⟨hsM, sorted_glue (sorted_glue hsR hxR) ?_, ?_⟩
    · intro y hy
      rcases of_mem_glue hy with ⟨ha, -⟩ | hy
      · exact ha ▸ hpx
      · exact le_of_lt (hpR y hy)
    · intro m hm y hy
      have hmp : m.stop < p.addr := hMR m hm p List.mem_cons_self
      unfold Seg.Before
      rcases of_mem_glue hy with ⟨ha, -⟩ | hy
      · exact ha ▸ hmp
      · rcases of_mem_glue hy with ⟨ha, -⟩ | hy
        · exact ha ▸ hmp.trans_le (p.addr_le_stop.trans hpx)
        · exact hMR m hm y (List.mem_cons_of_mem _ hy)
  pos y hy h0 := by
    rcases List.mem_append.1 hy with hy | hy
    · exact h.pos y (by simp [hy]) h0
    · rcases of_mem_glue hy with ⟨ha, hs⟩ | hy
      · rw [ha]
        exact h.pos p (by simp) (by omega)
      · rcases of_mem_glue hy with ⟨-, hs⟩ | hy
        · have := h.live_pos x List.mem_cons_self
          omega
        · exact h.pos y (by simp [hy]) h0
  tiles u := by
    rw [← h.tiles u]
    simp only [cover_append, cover_glue, cover_cons]
    omega
  live_pos y hy := h.live_pos y (List.mem_cons_of_mem _ hy)

theorem take (h : Layout lo hi (M ++ q :: p :: R) live) (hp : 0 < p.size) :
    Layout lo hi (M ++ q :: R) (p :: live) where
  lo_pos := h.lo_pos
  lo_le := h.lo_le
  head := by
    have hh := h.head
    cases M <;> exact hh
  sorted := h.sorted.sublist (by simp)
  pos y hy := h.pos y (by simp at hy ⊢; tauto)
  tiles u := by
    rw [← h.tiles u]
    simp only [cover_append, cover_cons]
    omega
  live_pos := List.forall_mem_cons.2 ⟨hp, h.live_pos⟩

/-- Handing out the last `n` units of `p`. -/
theorem split (h : Layout lo hi (M ++ p :: R) live) (hn : 0 < n) (hp : n < p.size) :
    Layout lo hi (M ++ ⟨p.addr, p.size - n⟩ :: R) (⟨p.addr + (p.size - n), n⟩ :: live) where
  lo_pos := h.lo_pos
  lo_le := h.lo_le
  head := by
    have hh := h.head
    cases M with
    | cons m M => exact hh
    | nil =>
      rw [List.nil_append, List.head?_cons, Option.some_inj] at hh
      subst hh
      exact absurd hp (by simp [anchor])
  sorted := by
    obtain ⟨hsM, hsR, hMR⟩ := List.pairwise_append.1 h.sorted
    obtain ⟨hpR, hsR⟩ := List.pairwise_cons.1 hsR
    refine List.pairwise_append.2 ⟨hsM, List.pairwise_cons.2 ⟨fun y hy => ?_, hsR⟩, ?_⟩
    · have hpy : p.addr + p.size < y.addr := hpR y hy
      show p.addr + (p.size - n) < y.addr
      omega
    · intro m hm y hy
      rcases List.mem_cons.1 hy with rfl | hy
      · exact hMR m hm p List.mem_cons_self
      · exact hMR m hm y (List.mem_cons_of_mem _ hy)
  pos y hy h0 := by
    rcases List.mem_append.1 hy with hy | hy
    · exact h.pos y (by simp [hy]) h0
    · rcases List.mem_cons.1 hy with rfl | hy
      · exact absurd h0 (Nat.sub_ne_zero_of_lt hp)
      · exact h.pos y (by simp [hy]) h0
  tiles u := by
    rw [← h.tiles u]
    have hcut := cover_cut (u := u) p.addr (p.size - n) n R
    rw [Nat.sub_add_cancel (le_of_lt hp), show (⟨p.addr, p.size⟩ : Seg) = p from rfl] at hcut
    rw [cover_append, cover_append, cover_append, cover_append, hcut]
    simp only [cover_cons]
    omega
  live_pos := List.forall_mem_cons.2 ⟨hn, h.live_pos⟩

theorem grow (h : Layout lo hi ns live) (hn : 0 < n) :
    Layout lo (hi + n) ns (⟨hi, n⟩ :: live) where
  lo_pos := h.lo_pos
  lo_le := h.lo_le.trans (Nat.le_add_right ..)
  head := h.head
  sorted := h.sorted
  pos := h.pos
  tiles u := by
    have hu := h.tiles u
    have hlo := h.lo_le
    rw [cover_append] at hu ⊢
    rw [cover_cons]
    by_cases hnew : Seg.Has ⟨hi, n⟩ u
    · have h₁ : hi ≤ u := hnew.1
      rw [if_neg fun hc => absurd hc.2 (not_lt.2 h₁)] at hu
      rw [if_pos hnew, if_pos ⟨hlo.trans h₁, hnew.2⟩]
      omega
    · have h₁ : ¬ (hi ≤ u ∧ u < hi + n) := hnew
      rw [if_neg hnew, Nat.zero_add, hu]
      exact if_congr (by omega) rfl rfl
  live_pos := List.forall_mem_cons.2 ⟨hn, h.live_pos⟩

theorem exists_has (h : Layout lo hi ns live) (h₁ : lo ≤ u) (h₂ : u < hi) :
    ∃ x ∈ ns ++ live, x.Has u := by
  have hu := h.tiles u
  rw [if_pos ⟨h₁, h₂⟩] at hu
  obtain ⟨x, hx, hxu⟩ := List.countP_pos_iff.1 (show 0 < cover u (ns ++ live) by omega)
  exact ⟨x, hx, by simpa using hxu⟩

/-- When nothing is in use, everything is one free segment. -/
theorem eq_of_live_nil (h : Layout lo hi ns []) :
    ns = anchor :: if lo = hi then [] else [⟨lo, hi - lo⟩] := by
  obtain ⟨fs, rfl⟩ := h.exists_cons
  have hanchor : ∀ u, ¬ anchor.Has u := fun u hu => Nat.not_lt_zero u hu.2
  congr 1
  cases fs with
  | nil =>
    split
    · rfl
    · obtain ⟨x, hx, hxu⟩ := h.exists_has le_rfl (lt_of_le_of_ne h.lo_le ‹_›)
      rw [List.append_nil, List.mem_singleton] at hx
      exact absurd (hx ▸ hxu) (hanchor _)
  | cons x rest =>
    obtain ⟨hx₀, hs⟩ := List.pairwise_cons.1 h.sorted
    have hsx := (List.pairwise_cons.1 hs).1
    have hpos : 0 < x.size := by
      by_contra hc
      have h₁ : 0 < x.addr := hx₀ x List.mem_cons_self
      have h₂ := h.pos x (by simp) (by omega)
      omega
    obtain ⟨hlo, hstop⟩ := h.inside (x := x) (by simp) hpos
    have hlt : x.addr < hi := h.addr_lt (by simp)
    -- the first unit is `x`'s: the segments after it begin later
    have haddr : x.addr = lo := by
      obtain ⟨w, hw, hwu⟩ := h.exists_has le_rfl (hlo.trans_lt hlt)
      rw [List.append_nil] at hw
      rcases List.mem_cons.1 hw with rfl | hw
      · exact absurd hwu (hanchor _)
      · rcases List.mem_cons.1 hw with rfl | hw
        · exact le_antisymm hwu.1 hlo
        · have h₁ := x.addr_le_stop.trans_lt (hsx w hw)
          have h₂ := hwu.1
          omega
    -- and nobody has the unit after `x`, so there is none
    have hend : x.stop = hi := by
      by_contra hc
      obtain ⟨w, hw, hwu⟩ := h.exists_has (hlo.trans x.addr_le_stop) (lt_of_le_of_ne hstop hc)
      rw [List.append_nil] at hw
      rcases List.mem_cons.1 hw with rfl | hw
      · exact hanchor _ hwu
      · rcases List.mem_cons.1 hw with rfl | hw
        · exact lt_irrefl _ hwu.2
        · exact absurd (hsx w hw) (not_lt.2 hwu.1)
    have hrest : rest = [] := by
      refine List.eq_nil_iff_forall_not_mem.2 fun y hy => ?_
      have h₁ : x.stop < y.addr := hsx y hy
      have h₂ := h.addr_lt (x := y) (by simp [hy])
      omega
    have hsize : x.size = hi - lo := by
      unfold Seg.stop at hend
      omega
    rw [if_neg (by omega), hrest]
    exact congrArg (· :: []) (Seg.ext haddr hsize)

end Layout

end Umalloc

end Xv6Editor
