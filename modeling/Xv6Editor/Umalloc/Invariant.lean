import Xv6Editor.CMem.Links
import Xv6Editor.Umalloc.Model
import Xv6Editor.Umalloc.Layout

/-!
# The allocator keeps the heap

* `Chain mem last xs` : the headers of the blocks `xs` are linked in this order.
* `Inv lo s ns live` : the free blocks `ns` and the blocks in use `live` are a layout of the heap,
  and the headers in memory say so.
* `Inv.free`, `Inv.morecore`, `Inv.malloc` : on such a heap `free` and `malloc` return, what
  they return is such a heap again, and no unit of a block that stays in use is written
  (`Keeps`).

The loops are followed along the ring: `freeLoop_walk` and `mallocLoop_walk` say what a loop does
with a linked run of blocks at none of which it stops.
-/

namespace Xv6Editor

namespace Umalloc

variable {mem mem' : ℕ → Header} {last a b bp : ℕ} {x : Seg} {xs ys : List Seg}

/-! ### Blocks linked in memory -/

/-- The address of the first of the blocks, or `last` if there is none. -/
def first (last : ℕ) (xs : List Seg) : ℕ := (xs.map Seg.addr).headD last

@[simp] theorem first_nil : first last [] = last := rfl

@[simp] theorem first_cons : first last (x :: xs) = x.addr := rfl

@[simp] theorem first_append : first last (xs ++ ys) = first (first last ys) xs := by
  unfold first
  rw [List.map_append, headD_append]

@[simp] theorem first_glue : first last (glue x xs) = x.addr := by
  obtain ⟨z, ys, hz, ha, -⟩ := exists_glue x xs
  rw [hz, first_cons, ha]

/-- The headers of `xs` are linked in this order, the last of them to `last`. -/
def Chain (mem : ℕ → Header) (last : ℕ) (xs : List Seg) : Prop :=
  Links (fun a => (mem a).ptr) last (xs.map Seg.addr) ∧ ∀ x ∈ xs, (mem x.addr).size = x.size

theorem chain_nil : Chain mem last [] := ⟨trivial, List.forall_mem_nil _⟩

theorem chain_cons :
    Chain mem last (x :: xs) ↔ mem x.addr = ⟨first last xs, x.size⟩ ∧ Chain mem last xs := by
  unfold Chain
  rw [List.map_cons, links_cons, List.forall_mem_cons, Header.ext_iff]
  exact and_and_and_comm

theorem chain_append :
    Chain mem last (xs ++ ys) ↔ Chain mem (first last ys) xs ∧ Chain mem last ys := by
  unfold Chain
  rw [List.map_append, links_append, List.forall_mem_append]
  exact and_and_and_comm

theorem Chain.congr (h : Chain mem last xs) (hag : ∀ x ∈ xs, mem' x.addr = mem x.addr) :
    Chain mem' last xs := by
  refine ⟨h.1.congr ?_, fun x hx => by rw [hag x hx, h.2 x hx]⟩
  intro a ha
  obtain ⟨x, hx, rfl⟩ := List.mem_map.1 ha
  exact congrArg Header.ptr (hag x hx)

/-! ### `join` -/

theorem setSize_self : setSize mem a b a = ⟨(mem a).ptr, b⟩ := Function.update_self ..

theorem setSize_of_ne {c : ℕ} (hc : c ≠ a) : setSize mem a b c = mem c :=
  Function.update_of_ne hc ..

theorem setPtr_self : setPtr mem a b a = ⟨b, (mem a).size⟩ := Function.update_self ..

theorem setPtr_of_ne {c : ℕ} (hc : c ≠ a) : setPtr mem a b c = mem c :=
  Function.update_of_ne hc ..

theorem join_of_ne {c : ℕ} (hc : c ≠ a) : join mem a b c = mem c := by
  unfold join setPtr setSize
  split <;> simp [Function.update_of_ne hc]

theorem join_self :
    join mem a b a =
      if a + (mem a).size = b then ⟨(mem b).ptr, (mem a).size + (mem b).size⟩
      else ⟨b, (mem a).size⟩ := by
  unfold join setPtr setSize
  split
  · by_cases hab : b = a
    · subst hab
      simp
    · simp [Function.update_of_ne hab]
  · simp

/-- Joining a block to a chain makes a chain of the blocks that are then there. -/
theorem Chain.join (h : Chain mem last xs) (hx : (mem x.addr).size = x.size)
    (hne : ∀ y ∈ xs, y.addr ≠ x.addr) (hlast : xs = [] → x.stop ≠ last) :
    Chain (join mem x.addr (first last xs)) last (glue x xs) := by
  have hag : Chain (Umalloc.join mem x.addr (first last xs)) last xs :=
    h.congr fun y hy => join_of_ne (hne y hy)
  cases xs with
  | nil =>
    refine chain_cons.2 ⟨?_, hag⟩
    rw [join_self, hx]
    exact if_neg (hlast rfl)
  | cons y ys =>
    obtain ⟨hy, hys⟩ := chain_cons.1 h
    by_cases ht : x.stop = y.addr
    · rw [glue_of_touch ht]
      refine chain_cons.2 ⟨?_, (chain_cons.1 hag).2⟩
      rw [join_self, hx, first_cons, hy]
      exact if_pos ht
    · rw [glue_of_ne ht]
      refine chain_cons.2 ⟨?_, hag⟩
      rw [join_self, hx, first_cons]
      exact if_neg ht

/-! ### The loop of `free` -/

/-- The loop stops at `p`. -/
def Stops (mem : ℕ → Header) (bp p : ℕ) : Prop :=
  (bp > p ∧ bp < (mem p).ptr) ∨ (p ≥ (mem p).ptr ∧ (bp > p ∨ bp < (mem p).ptr))

theorem freeLoop_of_stops {fuel p : ℕ} (h : Stops mem bp p) :
    freeLoop mem bp (fuel + 1) p = some p := by
  unfold freeLoop
  rcases h with h | h
  · rw [if_pos h]
  · rw [if_pos h, ite_self]

/-- The loop walks along a linked run of blocks at which it does not stop. -/
theorem freeLoop_walk (h : Chain mem last xs) (hns : ∀ x ∈ xs, ¬ Stops mem bp x.addr)
    (fuel : ℕ) :
    freeLoop mem bp (xs.length + fuel) (first last xs) = freeLoop mem bp fuel last := by
  induction xs with
  | nil => rw [List.length_nil, Nat.zero_add, first_nil]
  | cons x xs ih =>
    obtain ⟨hx, hxs⟩ := chain_cons.1 h
    have hstop := hns x List.mem_cons_self
    rw [Stops, not_or] at hstop
    rw [List.length_cons, Nat.add_right_comm, first_cons, freeLoop, if_neg hstop.1,
      if_neg hstop.2, hx]
    exact ih hxs fun y hy => hns y (List.mem_cons_of_mem _ hy)

section Place

variable {M R : List Seg} {p : Seg}

theorem stops_place (h : Chain mem base (M ++ p :: R)) (hp : p.addr < bp)
    (hR : ∀ y ∈ R, bp < y.addr) : Stops mem bp p.addr := by
  have hptr := (chain_cons.1 (chain_append.1 h).2).1
  unfold Stops
  rw [hptr]
  cases R with
  | nil => exact .inr ⟨Nat.zero_le _, .inl hp⟩
  | cons r R => exact .inl ⟨hp, hR r List.mem_cons_self⟩

theorem not_stops_before {y : Seg} (h : Chain mem base (M ++ p :: R))
    (hs : (M ++ p :: R).Pairwise Seg.Before) (hp : p.addr < bp) (hy : y ∈ M) :
    ¬ Stops mem bp y.addr := by
  obtain ⟨M₁, M₂, rfl⟩ := List.append_of_mem hy
  rw [List.append_assoc, List.cons_append] at h hs
  have hptr := (chain_cons.1 (chain_append.1 h).2).1
  have hs' := (List.pairwise_append.1 hs).2.1
  -- the next block is `p` at the latest
  have hle : y.addr < (mem y.addr).ptr ∧ (mem y.addr).ptr ≤ p.addr := by
    have hyp : y.stop < p.addr := (List.pairwise_cons.1 hs').1 p (by simp)
    have hya := y.addr_le_stop
    rw [hptr]
    cases M₂ with
    | nil => exact ⟨hya.trans_lt hyp, le_rfl⟩
    | cons m M₂ =>
      have hym : y.stop < m.addr := (List.pairwise_cons.1 hs').1 m (by simp)
      have hmp : m.stop < p.addr :=
        (List.pairwise_cons.1 (List.pairwise_cons.1 hs').2).1 p (by simp)
      exact ⟨hya.trans_lt hym, m.addr_le_stop.trans hmp.le⟩
  unfold Stops
  omega

theorem not_stops_after {y : Seg} (h : Chain mem base (M ++ p :: R))
    (hs : (M ++ p :: R).Pairwise Seg.Before) (hR : ∀ y ∈ R, bp < y.addr) (hy : y ∈ R) :
    ¬ Stops mem bp y.addr := by
  have hby := hR y hy
  obtain ⟨R₁, R₂, rfl⟩ := List.append_of_mem hy
  rw [← List.cons_append, ← List.append_assoc] at h hs
  have hptr := (chain_cons.1 (chain_append.1 h).2).1
  have hs' := (List.pairwise_append.1 hs).2.1
  have hnext : (mem y.addr).ptr = 0 ∨ y.addr < (mem y.addr).ptr := by
    rw [hptr]
    cases R₂ with
    | nil => exact .inl rfl
    | cons r R₂ =>
      have hyr : y.stop < r.addr := (List.pairwise_cons.1 hs').1 r (by simp)
      exact .inr (y.addr_le_stop.trans_lt hyr)
  unfold Stops
  omega

/-- From any free block the loop comes to the place of `bp`. -/
theorem freeLoop_eq {fuel : ℕ} {q : Seg} (h : Chain mem base (M ++ p :: R))
    (hh : first base (M ++ p :: R) = base) (hs : (M ++ p :: R).Pairwise Seg.Before)
    (hp : p.addr < bp) (hR : ∀ y ∈ R, bp < y.addr) (hq : q ∈ M ++ p :: R)
    (hf : (M ++ p :: R).length ≤ fuel) : freeLoop mem bp fuel q.addr = some p.addr := by
  have hstop := stops_place h hp hR
  obtain ⟨hM, hpR⟩ := chain_append.1 h
  rw [first_cons] at hM
  rw [first_append, first_cons] at hh
  rw [List.length_append, List.length_cons] at hf
  -- from a block before the place
  have before : ∀ (M₁ M₂ : List Seg) (k : ℕ), M = M₁ ++ M₂ → M₂.length < k →
      freeLoop mem bp k (first p.addr M₂) = some p.addr := by
    intro M₁ M₂ k hM₂ hk
    rw [hM₂] at hM
    obtain ⟨j, rfl⟩ := Nat.exists_eq_add_of_lt hk
    rw [Nat.add_assoc, freeLoop_walk (chain_append.1 hM).2 _ (j + 1), freeLoop_of_stops hstop]
    intro y hy
    exact not_stops_before h hs hp (by simp [hM₂, hy])
  rcases List.mem_append.1 hq with hq | hq
  · obtain ⟨M₁, M₂, hM₂⟩ := List.append_of_mem hq
    have hl := congrArg List.length hM₂
    rw [List.length_append] at hl
    exact before M₁ (q :: M₂) fuel hM₂ (by omega)
  · rcases List.mem_cons.1 hq with rfl | hq
    · exact before M [] fuel (List.append_nil M).symm (by simp; omega)
    · -- from a block after the place, around the ring
      obtain ⟨R₁, R₂, hR₂⟩ := List.append_of_mem hq
      have hl := congrArg List.length hR₂
      rw [List.length_append] at hl
      obtain ⟨j, rfl⟩ := Nat.exists_eq_add_of_le (show (q :: R₂).length ≤ fuel by omega)
      have hc : Chain mem base (q :: R₂) := by
        have := (chain_cons.1 hpR).2
        rw [hR₂] at this
        exact (chain_append.1 this).2
      have hns : ∀ y ∈ q :: R₂, ¬ Stops mem bp y.addr := fun y hy =>
        not_stops_after h hs hR (by rw [hR₂]; exact List.mem_append_right _ hy)
      have hwalk := freeLoop_walk hc hns j
      rw [first_cons] at hwalk
      rw [hwalk, ← hh]
      exact before [] M j rfl (by simp at hl hf ⊢; omega)

end Place

/-! ### The invariant -/

/-- The heap from `lo` to the break with the free blocks `ns` and the blocks in use `live`. -/
structure Inv (lo : ℕ) (s : Arena) (ns live : List Seg) : Prop where
  /-- The blocks tile the heap. -/
  layout : Layout lo s.brk ns live
  /-- The free blocks are linked to a ring. -/
  chain : Chain s.mem base ns
  /-- The blocks in use have their sizes in their headers. -/
  sizes : ∀ x ∈ live, (s.mem x.addr).size = x.size
  /-- `freep` is a free block. -/
  freep : ∃ x ∈ ns, s.freep = some x.addr

/-- From `s` to `s'` no unit of the blocks `live` has changed. -/
def Keeps (live : List Seg) (s s' : Arena) : Prop :=
  ∀ x ∈ live, ∀ u, x.Has u → s'.mem u = s.mem u

variable {lo n : ℕ} {s s' s'' : Arena} {ns live live' : List Seg}

theorem Keeps.refl : Keeps live s s := fun _ _ _ _ => rfl

theorem Keeps.trans (h : Keeps live s s') (h' : Keeps live s' s'') : Keeps live s s'' :=
  fun x hx u hu => (h' x hx u hu).trans (h x hx u hu)

theorem Inv.perm (h : Inv lo s ns live) (hp : live.Perm live') : Inv lo s ns live' :=
  ⟨h.layout.perm hp, h.chain, fun x hx => h.sizes x (hp.mem_iff.2 hx), h.freep⟩

theorem Inv.first_eq (h : Inv lo s ns live) : first base ns = base := by
  obtain ⟨fs, rfl⟩ := h.layout.exists_cons
  rfl

/-- `free` of a block in use. -/
theorem Inv.free (h : Inv lo s ns (x :: live)) :
    ∃ s' ns', free (x.addr + 1) s = some s' ∧ Inv lo s' ns' live ∧ Keeps live s s' ∧
      s'.brk = s.brk ∧ ∀ y ∈ x :: ns, ∃ z ∈ ns', y.size ≤ z.size := by
  have hx : x ∈ x :: live := List.mem_cons_self
  obtain ⟨M, p, R, rfl, hM, hR⟩ := h.layout.exists_place hx
  have hpx : p.addr < x.addr := hM p (by simp)
  have hs := h.layout.sorted
  obtain ⟨q, hq, hfreep⟩ := h.freep
  have hloop := freeLoop_eq h.chain h.first_eq hs hpx hR hq h.layout.length_le
  obtain ⟨hcM, hcp⟩ := chain_append.1 h.chain
  obtain ⟨hp, hcR⟩ := chain_cons.1 hcp
  -- `bp` is joined to the blocks after it, then `p` to `bp`
  have h₁ : Chain (join s.mem x.addr (first base R)) base (glue x R) := by
    refine hcR.join (h.sizes x hx) (fun y hy => (hR y hy).ne') fun _ hc => ?_
    have := x.addr_le_stop
    rw [hc] at this
    exact absurd (hpx.trans_le this) (Nat.not_lt_zero _)
  have hpsize : (join s.mem x.addr (first base R) p.addr).size = p.size := by
    rw [join_of_ne hpx.ne, hp]
  have hpR : ∀ y ∈ R, p.addr < y.addr := fun y hy => hpx.trans (hR y hy)
  have h₂ := h₁.join hpsize
    (fun y hy => by
      rcases of_mem_glue hy with ⟨ha, -⟩ | hy
      · exact ha ▸ hpx.ne'
      · exact (hpR y hy).ne')
    (fun hc => by
      obtain ⟨z, ys, hz, -⟩ := exists_glue x R
      rw [hz] at hc
      cases hc)
  rw [first_glue] at h₂
  -- no other unit is written
  have hag : ∀ u, u ≠ x.addr → u ≠ p.addr →
      join (join s.mem x.addr (first base R)) p.addr x.addr u = s.mem u := by
    intro u hux hup
    rw [join_of_ne hup, join_of_ne hux]
  have hlive : ∀ y ∈ live, ∀ u, y.Has u →
      join (join s.mem x.addr (first base R)) p.addr x.addr u = s.mem u := by
    intro y hy u hu
    refine hag u ?_ (h.layout.addr_ne (y := p) (by simp) (List.mem_cons_of_mem _ hy) hu).symm
    rintro rfl
    exact h.layout.not_has_live hy (Seg.has_addr (h.layout.live_pos x hx)) hu
  have hfree : Umalloc.free (x.addr + 1) s =
      some { s with
        mem := join (join s.mem x.addr (first base R)) p.addr x.addr, freep := some p.addr } := by
    unfold Umalloc.free
    rw [hfreep, Nat.add_sub_cancel]
    show (freeLoop s.mem x.addr s.brk q.addr >>= _) = _
    rw [hloop]
    show some _ = _
    rw [hp]
  refine ⟨_, _, hfree, ⟨h.layout.free hM hR, chain_append.2 ⟨?_, h₂⟩, ?_, ?_⟩, hlive, rfl, ?_⟩
  · rw [first_glue]
    rw [first_cons] at hcM
    exact hcM.congr fun y hy => hag _ (hM y (by simp [hy])).ne
      (addr_ne_of_sorted hs y (List.mem_append_left _ hy))
  · intro y hy
    show (join _ _ _ y.addr).size = y.size
    rw [hlive y hy _ (Seg.has_addr (h.layout.live_pos y (List.mem_cons_of_mem _ hy)))]
    exact h.sizes y (List.mem_cons_of_mem _ hy)
  · obtain ⟨z, ys, hz, ha, -⟩ := exists_glue p (glue x R)
    exact ⟨z, by rw [hz]; simp, by rw [ha]⟩
  · -- a block that is joined to others is part of a larger one
    have hxR : ∀ y ∈ x :: R, ∃ z ∈ M ++ glue p (glue x R), y.size ≤ z.size := by
      intro y hy
      obtain ⟨z, hz, hle⟩ := exists_le_of_mem_glue hy
      obtain ⟨w, hw, hle'⟩ := exists_le_of_mem_glue (List.mem_cons_of_mem p hz)
      exact ⟨w, List.mem_append_right _ hw, hle.trans hle'⟩
    refine List.forall_mem_cons.2 ⟨hxR x List.mem_cons_self, List.forall_mem_append.2 ⟨?_, ?_⟩⟩
    · exact fun y hy => ⟨y, List.mem_append_left _ hy, le_rfl⟩
    · refine List.forall_mem_cons.2 ⟨?_, fun y hy => hxR y (List.mem_cons_of_mem _ hy)⟩
      obtain ⟨w, hw, hle⟩ := exists_le_of_mem_glue (List.mem_cons_self (a := p) (l := glue x R))
      exact ⟨w, List.mem_append_right _ hw, hle⟩

/-! ### The loop of `malloc` -/

/-- The loop walks along a linked run of blocks that are too small, if `freep` is none of them. -/
theorem mallocLoop_walk (h : Chain s.mem last xs) (hsmall : ∀ x ∈ xs, x.size < n)
    (hf : ∀ x ∈ xs, some x.addr ≠ s.freep) (grant : Bool) (fuel prevp : ℕ) :
    mallocLoop grant n (xs.length + fuel) prevp (first last xs) s =
      mallocLoop grant n fuel ((xs.map Seg.addr).getLastD prevp) last s := by
  induction xs generalizing prevp with
  | nil => rw [List.length_nil, Nat.zero_add, first_nil, List.map_nil, List.getLastD_nil]
  | cons x xs ih =>
    obtain ⟨hx, hxs⟩ := chain_cons.1 h
    have hlt : ¬ (s.mem x.addr).size ≥ n := by
      rw [hx]
      exact not_le.2 (hsmall x List.mem_cons_self)
    rw [List.length_cons, Nat.add_right_comm, first_cons, mallocLoop, if_neg hlt,
      if_neg (hf x List.mem_cons_self), hx, List.map_cons, List.getLastD_cons]
    exact ih hxs (fun y hy => hsmall y (List.mem_cons_of_mem _ hy))
      (fun y hy => hf y (List.mem_cons_of_mem _ hy)) _

/-- It stops at the first block that is large enough. -/
theorem mallocLoop_hit {p : Seg} {fuel : ℕ} (h : Chain s.mem p.addr xs)
    (hsmall : ∀ x ∈ xs, x.size < n) (hf : ∀ x ∈ xs, some x.addr ≠ s.freep)
    (hp : n ≤ (s.mem p.addr).size) (hfuel : xs.length < fuel) (grant : Bool) (prevp : ℕ) :
    mallocLoop grant n fuel prevp (first p.addr xs) s =
      some (some (take n ((xs.map Seg.addr).getLastD prevp) p.addr s).1,
        (take n ((xs.map Seg.addr).getLastD prevp) p.addr s).2) := by
  obtain ⟨k, rfl⟩ := Nat.exists_eq_add_of_lt hfuel
  rw [Nat.add_assoc, mallocLoop_walk h hsmall hf, mallocLoop, if_pos hp]

/-- The ring as the loop of `malloc` sees it: the blocks `V` after `freep` first, then the blocks
`U` before it. -/
theorem Inv.ring (h : Inv lo s ns live) :
    ∃ U f V, ns = U ++ f :: V ∧ s.freep = some f.addr ∧ s.mem f.addr = ⟨first base V, f.size⟩ ∧
      Chain s.mem base V ∧ Chain s.mem f.addr U ∧ first f.addr U = base ∧
      ∀ x ∈ V ++ U, some x.addr ≠ s.freep := by
  obtain ⟨f, hf, hfreep⟩ := h.freep
  obtain ⟨U, V, rfl⟩ := List.append_of_mem hf
  obtain ⟨hU, hfV⟩ := chain_append.1 h.chain
  obtain ⟨hf, hV⟩ := chain_cons.1 hfV
  have hfirst := h.first_eq
  rw [first_append] at hfirst
  refine ⟨U, f, V, rfl, hfreep, hf, hV, hU, hfirst, fun x hx hc => ?_⟩
  rw [hfreep, Option.some_inj] at hc
  exact addr_ne_of_sorted h.layout.sorted x (List.perm_append_comm.mem_iff.1 hx) hc

theorem exists_concat (x : Seg) (xs : List Seg) :
    ∃ ys y, x :: xs = ys ++ [y] ∧ ∀ d, ((x :: xs).map Seg.addr).getLastD d = y.addr := by
  refine ⟨_, _, (List.dropLast_append_getLast (List.cons_ne_nil x xs)).symm, fun d => ?_⟩
  rw [List.getLastD_eq_getLast?, List.getLast?_map, List.getLast?_eq_getLast_of_ne_nil (by simp)]
  rfl

theorem getLastD_append (xs : List Seg) (x : Seg) (ys : List Seg) (d : ℕ) :
    ((xs ++ x :: ys).map Seg.addr).getLastD d = ((x :: ys).map Seg.addr).getLastD d := by
  rw [List.map_append, List.getLastD_eq_getLast?, List.getLastD_eq_getLast?,
    List.getLast?_append_of_ne_nil _ (by simp)]

theorem exists_first_fit (n : ℕ) (xs : List Seg) :
    (∀ x ∈ xs, x.size < n) ∨
      ∃ A p B, xs = A ++ p :: B ∧ (∀ x ∈ A, x.size < n) ∧ n ≤ p.size := by
  cases hfind : xs.find? (fun x => decide (n ≤ x.size)) with
  | none =>
    refine .inl fun x hx => ?_
    simpa using List.find?_eq_none.1 hfind x hx
  | some p =>
    obtain ⟨hp, A, B, hAB, hA⟩ := List.find?_eq_some_iff_append.1 hfind
    exact .inr ⟨A, p, B, hAB, fun x hx => by simpa using hA x hx, by simpa using hp⟩

/-- A block of the ring that is not empty is not the first one of the free list. -/
theorem Inv.exists_pred {A B : List Seg} {p : Seg} (h : Inv lo s (A ++ p :: B) live)
    (hp : 0 < p.size) : ∃ a A', A = a :: A' := by
  cases A with
  | cons a A => exact ⟨a, A, rfl⟩
  | nil =>
    obtain ⟨fs, hfs⟩ := h.layout.exists_cons
    cases hfs
    cases hp

/-- If a free block is large enough the loop hands one out, without asking for more memory. -/
theorem Inv.search {f : ℕ} (h : Inv lo s ns live) (hfit : ∃ x ∈ ns, n ≤ x.size)
    (hfreep : s.freep = some f) (hn : 0 < n) (grant : Bool) (fuel : ℕ) (hfuel : ns.length ≤ fuel) :
    ∃ M q p R, ns = M ++ q :: p :: R ∧ n ≤ p.size ∧
      mallocLoop grant n fuel f (s.mem f).ptr s =
        some (some (take n q.addr p.addr s).1, (take n q.addr p.addr s).2) := by
  obtain ⟨U, g, V, rfl, hg, hmem, hV, hU, hfirst, hne⟩ := h.ring
  obtain rfl : g.addr = f := by
    rw [hg, Option.some_inj] at hfreep
    exact hfreep
  rw [hmem]
  have hsize : ∀ x ∈ U ++ g :: V, (s.mem x.addr).size = x.size := h.chain.2
  rw [List.length_append, List.length_cons] at hfuel
  rcases exists_first_fit n V with hsV | ⟨A, p, B, rfl, hA, hp⟩
  · rcases exists_first_fit n U with hsU | ⟨A, p, B, rfl, hA, hp⟩
    · -- only `freep` itself is left
      have hp : n ≤ g.size := by
        obtain ⟨x, hx, hnx⟩ := hfit
        rcases List.mem_append.1 hx with hx | hx
        · exact absurd hnx (not_le.2 (hsU x hx))
        · rcases List.mem_cons.1 hx with rfl | hx
          · exact hnx
          · exact absurd hnx (not_le.2 (hsV x hx))
      obtain ⟨u, U', rfl⟩ := h.exists_pred (hn.trans_le hp)
      obtain ⟨M, q, hM, hq⟩ := exists_concat u U'
      have hc : Chain s.mem g.addr (V ++ u :: U') := chain_append.2 ⟨by rw [hfirst]; exact hV, hU⟩
      have hit := mallocLoop_hit hc (List.forall_mem_append.2 ⟨hsV, hsU⟩) hne
        (by rw [hsize g (by simp)]; exact hp)
        (show (V ++ u :: U').length < fuel by simp at hfuel ⊢; omega) grant g.addr
      rw [first_append, hfirst, getLastD_append, hq] at hit
      exact ⟨M, q, g, V, by rw [hM, List.append_assoc]; rfl, hp, hit⟩
    · -- around the ring
      rw [List.append_assoc] at h
      obtain ⟨u, A', rfl⟩ := h.exists_pred (hn.trans_le hp)
      obtain ⟨M, q, hM, hq⟩ := exists_concat u A'
      have hc : Chain s.mem p.addr (V ++ u :: A') :=
        chain_append.2 ⟨by rw [← hfirst] at hV; exact hV, (chain_append.1 hU).1⟩
      have hit := mallocLoop_hit hc (List.forall_mem_append.2 ⟨hsV, hA⟩)
        (fun x hx => hne x (by simp at hx ⊢; tauto))
        (by rw [hsize p (by simp)]; exact hp)
        (show (V ++ u :: A').length < fuel by simp at hfuel ⊢; omega) grant g.addr
      have hbase : first p.addr (u :: A') = base := hfirst
      rw [first_append, hbase, getLastD_append, hq] at hit
      exact ⟨M, q, p, B ++ g :: V, by rw [hM]; simp, hp, hit⟩
  · -- after `freep`
    obtain ⟨M, q, hM, hq⟩ := exists_concat g A
    have hit := mallocLoop_hit (chain_append.1 hV).1 hA
      (fun x hx => hne x (by simp [hx]))
      (by rw [hsize p (by simp)]; exact hp)
      (show A.length < fuel by simp at hfuel ⊢; omega) grant g.addr
    have hq' := hq 0
    rw [List.map_cons, List.getLastD_cons] at hq'
    rw [hq'] at hit
    refine ⟨U ++ M, q, p, B, ?_, hp, ?_⟩
    · rw [← List.cons_append, hM]
      simp
    · rw [first_append]
      exact hit

/-- If none is, the loop goes around the ring and comes back to `freep`. -/
theorem Inv.exhaust {f : ℕ} (h : Inv lo s ns live) (hsmall : ∀ x ∈ ns, x.size < n)
    (hfreep : s.freep = some f) (grant : Bool) (fuel : ℕ) :
    ¬ (s.mem f).size ≥ n ∧ ∃ prevp, mallocLoop grant n (ns.length + fuel) f (s.mem f).ptr s =
      mallocLoop grant n (fuel + 1) prevp f s := by
  obtain ⟨U, g, V, rfl, hg, hmem, hV, hU, hfirst, hne⟩ := h.ring
  obtain rfl : g.addr = f := by
    rw [hg, Option.some_inj] at hfreep
    exact hfreep
  have hc : Chain s.mem g.addr (V ++ U) := chain_append.2 ⟨by rw [hfirst]; exact hV, hU⟩
  have hlen : (U ++ g :: V).length + fuel = (V ++ U).length + (fuel + 1) := by
    simp only [List.length_append, List.length_cons]
    omega
  have hwalk := mallocLoop_walk hc (fun x hx => hsmall x (by simp at hx ⊢; tauto)) hne grant
    (fuel + 1) g.addr
  rw [first_append, hfirst] at hwalk
  rw [hlen, hmem, hwalk]
  exact ⟨not_le.2 (hsmall g (by simp)), _, rfl⟩

/-- There the loop asks for more memory, and is refused. -/
theorem mallocLoop_refused {grant : Bool} {fuel prevp f : ℕ} (hsize : ¬ (s.mem f).size ≥ n)
    (hfreep : s.freep = some f) (hm : morecore grant n s = some (none, s')) :
    mallocLoop grant n (fuel + 1) prevp f s = some (none, s') := by
  simp only [mallocLoop, if_neg hsize, if_pos hfreep.symm, hm]

/-- Or it gets more, and goes around again. -/
theorem mallocLoop_more {grant : Bool} {fuel prevp f p : ℕ} (hsize : ¬ (s.mem f).size ≥ n)
    (hfreep : s.freep = some f) (hm : morecore grant n s = some (some p, s')) :
    mallocLoop grant n (fuel + 1) prevp f s = mallocLoop grant n fuel p (s'.mem p).ptr s' := by
  simp only [mallocLoop, if_neg hsize, if_pos hfreep.symm, hm]

theorem Inv.take {M R : List Seg} {q p : Seg} (h : Inv lo s (M ++ q :: p :: R) live) (hn : 0 < n)
    (hp : n ≤ p.size) :
    ∃ a ns', (take n q.addr p.addr s).1 = a + 1 ∧
      Inv lo (take n q.addr p.addr s).2 ns' (⟨a, n⟩ :: live) ∧
      Keeps live s (take n q.addr p.addr s).2 ∧ (take n q.addr p.addr s).2.brk = s.brk := by
  have hpsize : (s.mem p.addr).size = p.size := h.chain.2 p (by simp)
  obtain ⟨hcM, hcq⟩ := chain_append.1 h.chain
  obtain ⟨hmq, hcp⟩ := chain_cons.1 hcq
  obtain ⟨hmp, hcR⟩ := chain_cons.1 hcp
  have hs := h.layout.sorted
  unfold Umalloc.take
  rw [hpsize]
  by_cases heq : p.size = n
  · -- the block is unlinked
    subst heq
    rw [if_pos rfl]
    have hl := h.layout.take hn
    have hneq := addr_ne_of_sorted hl.sorted
    have hkeep : ∀ y ∈ live, ∀ u, y.Has u →
        setPtr s.mem q.addr (s.mem p.addr).ptr u = s.mem u := fun y hy u hu =>
      setPtr_of_ne (h.layout.addr_ne (y := q) (by simp) hy hu).symm
    refine ⟨p.addr, M ++ q :: R, rfl, ⟨hl, chain_append.2 ⟨?_, chain_cons.2 ⟨?_, ?_⟩⟩, ?_, ?_⟩,
      hkeep, rfl⟩
    · exact hcM.congr fun x hx => setPtr_of_ne (hneq x (List.mem_append_left _ hx))
    · show setPtr _ _ _ _ = _
      rw [setPtr_self, hmp, hmq]
    · exact hcR.congr fun x hx => setPtr_of_ne (hneq x (List.mem_append_right _ hx))
    · refine List.forall_mem_cons.2 ⟨?_, fun y hy => ?_⟩
      · show (setPtr _ _ _ p.addr).size = p.size
        rw [setPtr_of_ne (addr_ne_of_sorted hs p (by simp)), hpsize]
      · show (setPtr _ _ _ y.addr).size = y.size
        rw [hkeep y hy _ (Seg.has_addr (h.layout.live_pos y hy)), h.sizes y hy]
    · exact ⟨q, by simp, rfl⟩
  · -- its end is cut off
    rw [if_neg heq]
    have hlt : n < p.size := lt_of_le_of_ne hp (Ne.symm heq)
    have hl : Layout lo s.brk ((M ++ [q]) ++ p :: R) live := by simpa using h.layout
    have hl' := hl.split hn hlt
    set cut : ℕ := p.addr + (p.size - n) with hcut
    have hnew : Seg.Has ⟨cut, n⟩ cut := Seg.has_addr hn
    have hself : ∀ y ∈ (M ++ [q]) ++ ⟨p.addr, p.size - n⟩ :: R, y.addr ≠ cut := fun y hy =>
      hl'.addr_ne hy List.mem_cons_self hnew
    simp only [setSize_self]
    rw [← hcut]
    have hag : ∀ u, u ≠ p.addr → u ≠ cut →
        setSize (setSize s.mem p.addr (p.size - n)) cut n u = s.mem u := by
      intro u hup huc
      rw [setSize_of_ne huc, setSize_of_ne hup]
    have hnodes : ∀ y ∈ (M ++ [q]) ++ R,
        setSize (setSize s.mem p.addr (p.size - n)) cut n y.addr = s.mem y.addr := fun y hy =>
      hag _ (addr_ne_of_sorted hl.sorted y hy) (hself y (by simp at hy ⊢; tauto))
    have hkeep : ∀ y ∈ live, ∀ u, y.Has u →
        setSize (setSize s.mem p.addr (p.size - n)) cut n u = s.mem u := by
      intro y hy u hu
      refine hag u (hl.addr_ne (y := p) (by simp) hy hu).symm ?_
      rintro rfl
      exact hl'.not_has_live hy hnew hu
    have hcMq : Chain s.mem p.addr (M ++ [q]) :=
      chain_append.2 ⟨hcM, chain_cons.2 ⟨hmq, chain_nil⟩⟩
    refine ⟨cut, _, rfl, ⟨hl', chain_append.2 ⟨?_, chain_cons.2 ⟨?_, ?_⟩⟩, ?_, ?_⟩, hkeep, trivial⟩
    · exact hcMq.congr fun x hx => hnodes x (List.mem_append_left _ hx)
    · show setSize _ _ _ p.addr = _
      rw [setSize_of_ne (hself ⟨p.addr, p.size - n⟩ (by simp)), setSize_self, hmp]
    · exact hcR.congr fun x hx => hnodes x (List.mem_append_right _ hx)
    · refine List.forall_mem_cons.2 ⟨?_, fun y hy => ?_⟩
      · show (setSize _ _ _ cut).size = n
        rw [setSize_self]
      · show (setSize _ _ _ y.addr).size = y.size
        rw [hkeep y hy _ (Seg.has_addr (h.layout.live_pos y hy)), h.sizes y hy]
    · exact ⟨q, by simp, rfl⟩

/-! ### `malloc` -/

theorem coreUnits_pos (n : ℕ) : 0 < coreUnits n := by
  unfold coreUnits
  split <;> omega

theorem le_coreUnits (n : ℕ) : n ≤ coreUnits n := by
  unfold coreUnits
  split <;> omega

theorem units_pos (n : ℕ) : 0 < units n := Nat.succ_pos _

theorem units_eq {nbytes : ℕ} (h : nbytes ≤ maxRequest) : units nbytes = (nbytes + 7) / 8 + 1 := by
  unfold maxRequest at h
  unfold units unitSize
  rw [Nat.mod_eq_of_lt (by omega)]
  rfl

theorem coreUnits_lt {nbytes : ℕ} (h : nbytes ≤ maxRequest) :
    coreUnits (units nbytes) * unitSize < 2 ^ 31 := by
  rw [units_eq h]
  unfold maxRequest at h
  unfold coreUnits unitSize
  split <;> omega

theorem Inv.morecore (h : Inv lo s ns live) (hn : coreUnits n * unitSize < 2 ^ 31)
    (hroom : (s.brk + coreUnits n) * unitSize < KERNBASE) :
    ∃ p s' ns', morecore true n s = some (some p, s') ∧ Inv lo s' ns' live ∧ Keeps live s s' ∧
      s'.freep = some p ∧ s'.brk = s.brk + coreUnits n ∧ ∃ z ∈ ns', n ≤ z.size := by
  have hl := h.layout.grow (coreUnits_pos n)
  have hag : ∀ x ∈ ns ++ live, ∀ u, u = x.addr ∨ x.Has u →
      setSize s.mem s.brk (coreUnits n) u = s.mem u := by
    intro x hx u hu
    refine setSize_of_ne ?_
    rcases hu with rfl | hu
    · exact (h.layout.addr_lt hx).ne
    · exact (hu.2.trans_le (h.layout.stop_le hx)).ne
  have hnew : Inv lo ⟨setSize s.mem s.brk (coreUnits n), s.freep, s.brk + coreUnits n⟩ ns
      (⟨s.brk, coreUnits n⟩ :: live) := by
    refine ⟨hl, ?_, ?_, h.freep⟩
    · exact h.chain.congr fun x hx => hag x (List.mem_append_left _ hx) _ (.inl rfl)
    · refine List.forall_mem_cons.2 ⟨?_, fun x hx => ?_⟩
      · show (setSize _ _ _ s.brk).size = coreUnits n
        rw [setSize_self]
      · show (setSize _ _ _ x.addr).size = x.size
        rw [hag x (List.mem_append_right _ hx) _ (.inl rfl), h.sizes x hx]
  obtain ⟨s', ns', hfree, hinv, hkeep, hbrk, hjoin⟩ := hnew.free
  obtain ⟨z, hz, hle⟩ := hjoin _ List.mem_cons_self
  obtain ⟨p, hp, hfreep⟩ := hinv.freep
  refine ⟨p.addr, s', ns', ?_, hinv, ?_, hfreep, hbrk, z, hz, (le_coreUnits n).trans hle⟩
  · unfold Umalloc.morecore sbrk
    rw [if_neg (not_le.2 hn), if_pos ⟨rfl, hroom⟩]
    show (Umalloc.free (s.brk + 1) _ >>= fun s => some (s.freep, s)) = _
    rw [hfree]
    show some (s'.freep, s') = _
    rw [hfreep]
  · intro x hx u hu
    rw [hkeep x hx u hu]
    exact hag x (List.mem_append_right _ hx) u (.inr hu)

/-- Why the kernel gives no memory for a request. -/
def Refused (grant : Bool) (n : ℕ) (s : Arena) : Prop :=
  grant = false ∨ KERNBASE ≤ (s.brk + coreUnits n) * unitSize

theorem morecore_refused {grant : Bool} (hn : coreUnits n * unitSize < 2 ^ 31)
    (hr : Refused grant n s) : Umalloc.morecore grant n s = some (none, s) := by
  have hno : ¬ (grant = true ∧ (s.brk + coreUnits n) * unitSize < KERNBASE) := by
    rintro ⟨rfl, hlt⟩
    rcases hr with hr | hr
    · cases hr
    · exact absurd hlt (not_lt.2 hr)
  unfold Umalloc.morecore sbrk
  rw [if_neg (not_le.2 hn), if_neg hno]

theorem not_refused {grant : Bool} (hr : ¬ Refused grant n s) :
    grant = true ∧ (s.brk + coreUnits n) * unitSize < KERNBASE := by
  rw [Refused, not_or, Bool.not_eq_false, not_le] at hr
  exact hr

/-- `malloc` on a heap that is set up: it returns, with memory if a free block is large enough or
the kernel gives more. -/
theorem Inv.malloc {nbytes : ℕ} (h : Inv lo s ns live) (grant : Bool)
    (hmax : nbytes ≤ maxRequest) :
    ∃ r s', malloc grant nbytes s = some (r, s') ∧ Keeps live s s' ∧
      ((∃ a ns', r = some (a + 1) ∧ Inv lo s' ns' (⟨a, units nbytes⟩ :: live)) ∨
        (r = none ∧ Refused grant (units nbytes) s ∧ Inv lo s' ns live ∧
          ∀ x ∈ ns, x.size < units nbytes)) ∧
      (s'.brk = s.brk ∨
        (∀ x ∈ ns, x.size < units nbytes) ∧ s'.brk * unitSize < KERNBASE) := by
  have hn := units_pos nbytes
  have hcore := coreUnits_lt hmax
  obtain ⟨f, hf, hfreep⟩ := h.freep
  have hstart : start s = (f.addr, s) := by
    unfold start
    rw [hfreep]
  unfold Umalloc.malloc
  rw [hstart]
  have hlen := h.layout.length_le
  by_cases hfit : ∃ x ∈ ns, units nbytes ≤ x.size
  · obtain ⟨M, q, p, R, rfl, hp, hloop⟩ :=
      h.search hfit hfreep hn grant (2 * s.brk + coreUnits (units nbytes)) (by omega)
    obtain ⟨a, ns', ha, hinv, hkeep, hbrk⟩ := h.take hn hp
    exact ⟨_, _, hloop, hkeep, .inl ⟨a, ns', congrArg some ha, hinv⟩, .inl hbrk⟩
  · have hsmall : ∀ x ∈ ns, x.size < units nbytes := by
      intro x hx
      by_contra hc
      exact hfit ⟨x, hx, not_lt.1 hc⟩
    obtain ⟨k, hk⟩ := Nat.exists_eq_add_of_le
      (show ns.length ≤ 2 * s.brk + coreUnits (units nbytes) by omega)
    obtain ⟨hsize, prevp, hloop⟩ := h.exhaust hsmall hfreep grant k
    rw [← hk] at hloop
    by_cases hr : Refused grant (units nbytes) s
    · have hm : mallocLoop grant (units nbytes) (k + 1) prevp f.addr s = some (none, s) :=
        mallocLoop_refused hsize hfreep (morecore_refused hcore hr)
      exact ⟨none, s, hloop.trans hm, Keeps.refl, .inr ⟨rfl, hr, h, hsmall⟩, .inl rfl⟩
    · obtain ⟨rfl, hroom⟩ := not_refused hr
      obtain ⟨p, s', ns', hmore, hinv, hkeep, hfreep', hbrk, hfit'⟩ := h.morecore hcore hroom
      rw [mallocLoop_more hsize hfreep hmore] at hloop
      have hlen' := hinv.layout.length_le
      obtain ⟨M, q, w, R, rfl, hw, hloop'⟩ :=
        hinv.search hfit' hfreep' hn true k (by omega)
      obtain ⟨a, ns'', ha, hinv', hkeep', hbrk'⟩ := hinv.take hn hw
      refine ⟨_, _, hloop.trans hloop', hkeep.trans hkeep',
        .inl ⟨a, ns'', congrArg some ha, hinv'⟩, .inr ⟨hsmall, ?_⟩⟩
      rwa [hbrk', hbrk]

end Umalloc

end Xv6Editor
