import Mathlib.Order.Interval.Finset.Nat
import Xv6Editor.CMem.Owns
import Xv6Editor.Fs.Inode

/-!
# Who owns which block

The blocks of a file, as a function: `ptr v ip k` is the number of its `k`-th block, where the
number `140` stands for the indirect block, and `0` says that there is none.  `T` is the table of
the inodes.  Inside of a transaction it is ahead of what is on the disk, since the copy of an inode
in memory is written back at the end.

* `Wf sb v T` : every block that an inode refers to is marked in the bitmap and belongs to this
  inode only, at this place only; the blocks before the data are marked as well.
* `Adds sb v ip k b v' ip'` : one step of allocation: a free block becomes the `k`-th block.
* `Adds.wf` : such a step keeps the invariant.
* `Adds.sameFile` : it does not touch the other files.
-/

namespace Xv6Editor

namespace Fs

/-- The block of the bitmap, if there is only one. -/
def Superblock.bitmap (sb : Superblock) : ℕ := sb.ninodes / IPB + 3

/-- The first block after the bitmap. -/
def Superblock.data (sb : Superblock) : ℕ := sb.ninodes / IPB + 4

/-- The bitmap fits into one block, the data comes before the log, and the log has room for the
transactions. -/
structure Superblock.Ok (sb : Superblock) : Prop where
  size_le : sb.size ≤ BPB
  data_le : sb.data ≤ sb.start
  nlog : 8 < sb.nlog

/-- The `k`-th block of a file.  The block `140` is the indirect block. -/
def ptr (v : Blocks) (ip : Inode) (k : ℕ) : ℕ :=
  if h : k < 12 then ip.addrs ⟨k, h.trans (by decide)⟩
  else if k < 140 then if ip.indirect = 0 then 0 else (v ip.indirect).word (k - 12)
  else if k = 140 then ip.indirect
  else 0

/-- The blocks that the inodes own. -/
def own (sb : Superblock) (v : Blocks) (T : ℕ → Inode) (x : ℕ × ℕ) : ℕ :=
  if x.1 < sb.ninodes then ptr v (T x.1) x.2 else 0

/-- The invariant of the file system, for the table `T` of the inodes. -/
structure Wf (sb : Superblock) (v : Blocks) (T : ℕ → Inode) : Prop where
  super : .ofSector (v 1) = sb
  reserved : ∀ b, b < sb.data → used sb v b = true
  owns : Owns (own sb v T) fun b => sb.data ≤ b ∧ b < sb.start ∧ used sb v b = true

/-- The blocks that are free. -/
def freeBlocks (sb : Superblock) (v : Blocks) : Finset ℕ :=
  (Finset.Ico sb.data sb.start).filter fun b => used sb v b = false

/-- The blocks of the file are as they were. -/
def SameFile (v v' : Blocks) (ip : Inode) : Prop :=
  ∀ k, ptr v ip k ≠ 0 → v' (ptr v ip k) = v (ptr v ip k)

/-- The free block `b` becomes the `k`-th block of a file. -/
structure Adds (sb : Superblock) (v : Blocks) (ip : Inode) (k b : ℕ) (v' : Blocks) (ip' : Inode) :
    Prop where
  free : used sb v b = false
  data_le : sb.data ≤ b
  lt_start : b < sb.start
  ptr_eq : ptr v' ip' = Function.update (ptr v ip) k b
  used_eq : ∀ c, c < sb.size → used sb v' c = (c == b || used sb v c)
  same : ∀ s, s ≠ b → s ≠ sb.bitmap → s ≠ ip.indirect → v' s = v s
  fields : ip' = { ip with addrs := ip'.addrs }

variable {sb : Superblock} {v v' v'' : Blocks} {T : ℕ → Inode} {ip ip' : Inode} {i j k l b c s : ℕ}

namespace Superblock.Ok

theorem one_lt_bitmap (_ : sb.Ok) : 1 < sb.bitmap := Nat.le_add_left _ _

theorem bitmap_lt (_ : sb.Ok) : sb.bitmap < sb.data := Nat.lt_succ_self _

theorem one_lt_data (h : sb.Ok) : 1 < sb.data := h.one_lt_bitmap.trans h.bitmap_lt

theorem one_lt (h : sb.Ok) : 1 < sb.start := h.one_lt_data.trans_le h.data_le

theorem ne_one (h : sb.Ok) (hb : sb.data ≤ b) : b ≠ 1 := (h.one_lt_data.trans_le hb).ne'

theorem ne_zero (h : sb.Ok) (hb : sb.data ≤ b) : b ≠ 0 :=
  (Nat.zero_lt_one.trans (h.one_lt_data.trans_le hb)).ne'

theorem start_le (h : sb.Ok) : sb.start ≤ BPB := (Nat.sub_le _ _).trans h.size_le

theorem bblock_eq (h : sb.Ok) (hb : b < sb.size) : bblock b sb.ninodes = sb.bitmap := by
  rw [bblock, Nat.div_eq_of_lt (hb.trans_le h.size_le), Nat.zero_add, bitmap]

theorem used_eq (h : sb.Ok) (hb : b < sb.size) : used sb v b = (v sb.bitmap).bit b := by
  rw [used, h.bblock_eq hb, Nat.mod_eq_of_lt (hb.trans_le h.size_le)]

theorem lt_size (_ : sb.Ok) (hb : b < sb.start) : b < sb.size := hb.trans_le (Nat.sub_le _ _)

end Superblock.Ok

/-! ### Pointers -/

theorem ptr_indirect (v : Blocks) (ip : Inode) : ptr v ip 140 = ip.indirect := rfl

theorem ptr_direct (v : Blocks) (ip : Inode) (k : Fin 13) (h : (k : ℕ) < 12) :
    ptr v ip k = ip.addrs k := by
  rw [ptr, dif_pos h]

theorem ptr_entry (v : Blocks) {ip : Inode} {j : ℕ} (hj : j < 128) (h : ip.indirect ≠ 0) :
    ptr v ip (12 + j) = (v ip.indirect).word j := by
  rw [ptr, dif_neg (by omega), if_pos (by omega), if_neg h, Nat.add_sub_cancel_left]

theorem ptr_congr (h : ip.indirect ≠ 0 → v' ip.indirect = v ip.indirect) :
    ptr v' ip = ptr v ip := by
  funext k
  unfold ptr
  by_cases hip : ip.indirect = 0
  · simp only [hip, if_true]
  · rw [h hip]

namespace SameFile

theorem refl (v : Blocks) (ip : Inode) : SameFile v v ip := fun _ _ => rfl

theorem ptr_eq (h : SameFile v v' ip) : ptr v' ip = ptr v ip := ptr_congr (h 140)

theorem trans (h : SameFile v v' ip) (h' : SameFile v' v'' ip) : SameFile v v'' ip := by
  intro k hk
  rw [SameFile, h.ptr_eq] at h'
  rw [h' k hk, h k hk]

end SameFile

/-! ### Owners -/

namespace Wf

variable (W : Wf sb v T)
include W

theorem ptr_mem (hi : i < sb.ninodes) (hk : ptr v (T i) k ≠ 0) :
    sb.data ≤ ptr v (T i) k ∧ ptr v (T i) k < sb.start ∧ used sb v (ptr v (T i) k) = true := by
  have := W.owns.mem (i, k)
  rw [own, if_pos hi] at this
  exact this hk

theorem ptr_inj (hi : i < sb.ninodes) (hj : j < sb.ninodes) (hk : ptr v (T i) k ≠ 0)
    (h : ptr v (T i) k = ptr v (T j) l) : i = j ∧ k = l := by
  have := W.owns.inj (i, k) (j, l)
  rw [own, own, if_pos hi, if_pos hj] at this
  exact Prod.mk.inj (this hk h)

theorem ptr_ne (hi : i < sb.ninodes) (hj : j < sb.ninodes) (hk : ptr v (T i) k ≠ 0)
    (hne : i ≠ j ∨ k ≠ l) : ptr v (T i) k ≠ ptr v (T j) l := by
  intro h
  obtain ⟨h₁, h₂⟩ := W.ptr_inj hi hj hk h
  rcases hne with hne | hne
  · exact hne h₁
  · exact hne h₂

theorem ptr_ne_bitmap (hi : i < sb.ninodes) (hk : ptr v (T i) k ≠ 0) :
    ptr v (T i) k ≠ sb.bitmap := by
  exact ((Nat.lt_succ_self _ : sb.bitmap < sb.data).trans_le (W.ptr_mem hi hk).1).ne'

/-- The invariant depends only on the superblock, the bitmap and the blocks that are owned. -/
theorem congr {T' : ℕ → Inode} (h₁ : v' 1 = v 1)
    (hu : ∀ b, b < sb.size → used sb v' b = used sb v b) (hsb : sb.Ok)
    (ho : ∀ i, i < sb.ninodes → ptr v' (T' i) = ptr v (T i)) : Wf sb v' T' := by
  have hown : own sb v' T' = own sb v T := by
    funext x
    unfold own
    split_ifs with hx
    · rw [ho x.1 hx]
    · rfl
  refine ⟨h₁ ▸ W.super, fun b hb => ?_, hown ▸ ⟨fun x hx => ?_, W.owns.inj⟩⟩
  · rw [hu b (hsb.lt_size (hb.trans_le hsb.data_le)), W.reserved b hb]
  · obtain ⟨h₁, h₂, h₃⟩ := W.owns.mem x hx
    exact ⟨h₁, h₂, by rw [hu _ (hsb.lt_size h₂), h₃]⟩

/-- If there are free blocks, `balloc` finds one of them. -/
theorem exists_firstFree (hfree : (freeBlocks sb v).Nonempty) :
    ∃ b, FirstFree sb v b ∧ sb.data ≤ b ∧ b < sb.start := by
  obtain ⟨c, hc⟩ := hfree
  obtain ⟨hrange, hc⟩ := Finset.mem_filter.1 hc
  have hex : ∃ b, used sb v b = false := ⟨c, hc⟩
  refine ⟨Nat.find hex, ⟨Nat.find_spec hex, fun d hd => ?_⟩, ?_, ?_⟩
  · simpa using Nat.find_min hex hd
  · by_contra hlt
    have := W.reserved _ (not_le.1 hlt)
    rw [Nat.find_spec hex] at this
    cases this
  · exact (Nat.find_min' hex hc).trans_lt (Finset.mem_Ico.1 hrange).2

end Wf

/-! ### Allocation -/

theorem Wf.ptr_ne_free (W : Wf sb v T) (hb : used sb v b = false) (hj : j < sb.ninodes)
    (hl : ptr v (T j) l ≠ 0) : ptr v (T j) l ≠ b := by
  intro h
  have := (W.ptr_mem hj hl).2.2
  rw [h, hb] at this
  cases this

namespace Adds

variable (W : Wf sb v T) (hi : i < sb.ninodes) (A : Adds sb v (T i) k b v' ip')
include W hi A

theorem sameFile (hj : j < sb.ninodes) (hji : j ≠ i) : SameFile v v' (T j) := by
  intro l hl
  refine A.same _ (W.ptr_ne_free A.free hj hl) (W.ptr_ne_bitmap hj hl) ?_
  rw [← ptr_indirect v (T i)]
  exact W.ptr_ne hj hi hl (.inl hji)

theorem data_same (hl : ptr v (T i) l ≠ 0) (hl' : l ≠ 140) :
    v' (ptr v (T i) l) = v (ptr v (T i) l) := by
  refine A.same _ (W.ptr_ne_free A.free hi hl) (W.ptr_ne_bitmap hi hl) ?_
  rw [← ptr_indirect v (T i)]
  exact W.ptr_ne hi hi hl (.inr hl')

/-- The blocks before the data stay, except for the bitmap. -/
theorem meta_same (hs : s < sb.data) (hb : s ≠ sb.bitmap) (h0 : s ≠ 0) : v' s = v s := by
  have hdata := A.data_le
  refine A.same s (by omega) hb fun h => ?_
  have hk : ptr v (T i) 140 ≠ 0 := by rwa [ptr_indirect, ← h]
  have := (W.ptr_mem hi hk).1
  rw [ptr_indirect, ← h] at this
  omega

theorem own_eq : own sb v' (Function.update T i ip') =
    Function.update (own sb v T) (i, k) b := by
  funext ⟨j, l⟩
  by_cases hji : j = i
  · subst hji
    rw [own, if_pos hi, Function.update_self, A.ptr_eq]
    by_cases hlk : l = k
    · rw [hlk, Function.update_self, Function.update_self]
    · rw [Function.update_of_ne hlk, Function.update_of_ne (fun h => hlk (Prod.mk.inj h).2), own,
        if_pos hi]
  · rw [Function.update_of_ne (fun h => hji (Prod.mk.inj h).1), own, own]
    split_ifs with hj
    · rw [Function.update_of_ne hji, (A.sameFile W hi hj hji).ptr_eq]
    · rfl

theorem wf (hsb : sb.Ok) : Wf sb v' (Function.update T i ip') := by
  have hone : v' 1 = v 1 := by
    exact A.meta_same W hi hsb.one_lt_data hsb.one_lt_bitmap.ne one_ne_zero
  refine ⟨hone ▸ W.super, fun c hc => ?_, ?_⟩
  · rw [A.used_eq c (hsb.lt_size (hc.trans_le hsb.data_le)), W.reserved c hc, Bool.or_true]
  · rw [A.own_eq W hi]
    refine W.owns.take (fun x hx => ?_) (fun c hc => ?_) ⟨A.data_le, A.lt_start, ?_⟩ ?_
    · rw [own] at hx ⊢
      split_ifs at hx ⊢ with hx'
      · exact W.ptr_ne_free A.free hx' hx
      · exact absurd rfl hx
    · exact ⟨hc.1, hc.2.1, by rw [A.used_eq c (hsb.lt_size hc.2.1), hc.2.2, Bool.or_true]⟩
    · rw [A.used_eq b (hsb.lt_size A.lt_start), beq_self_eq_true, Bool.true_or]
    · exact hsb.ne_zero A.data_le

end Adds

theorem Adds.freeBlocks_eq (A : Adds sb v ip k b v' ip') (hsb : sb.Ok) :
    freeBlocks sb v' = (freeBlocks sb v).erase b := by
  ext c
  rw [freeBlocks, freeBlocks, Finset.mem_erase, Finset.mem_filter, Finset.mem_filter,
    Finset.mem_Ico]
  constructor
  · rintro ⟨hc, hu⟩
    rw [A.used_eq c (hsb.lt_size hc.2), Bool.or_eq_false_iff, beq_eq_false_iff_ne] at hu
    exact ⟨hu.1, hc, hu.2⟩
  · rintro ⟨hne, hc, hu⟩
    refine ⟨hc, ?_⟩
    rw [A.used_eq c (hsb.lt_size hc.2), hu, Bool.or_false, beq_eq_false_iff_ne]
    exact hne

/-- There is one free block less. -/
theorem Adds.card_freeBlocks (A : Adds sb v ip k b v' ip') (hsb : sb.Ok) :
    (freeBlocks sb v').card + 1 = (freeBlocks sb v).card := by
  rw [A.freeBlocks_eq hsb]
  refine Finset.card_erase_add_one (Finset.mem_filter.2 ⟨?_, A.free⟩)
  exact Finset.mem_Ico.2 ⟨A.data_le, A.lt_start⟩

/-! ### The three kinds of steps -/

section

variable (hsb : sb.Ok) (hstart : b < sb.start)
include hsb hstart

theorem alloc_apply (s : ℕ) : alloc sb v b s =
    if s = b then Block.zero 512 else if s = sb.bitmap then (v sb.bitmap).setBit b else v s := by
  rw [alloc, hsb.bblock_eq (hsb.lt_size hstart), Nat.mod_eq_of_lt (hstart.trans_le hsb.start_le),
    Function.update_apply, Function.update_apply]

variable (hdata : sb.data ≤ b)
include hdata

theorem used_alloc (hc : c < sb.size) :
    used sb (alloc sb v b) c = (c == b || used sb v c) := by
  have hne : sb.bitmap ≠ b := (hsb.bitmap_lt.trans_le hdata).ne
  rw [hsb.used_eq hc, hsb.used_eq hc, alloc_apply hsb hstart, if_neg hne, if_pos rfl,
    Block.bit_setBit]
  exact hstart.trans_le hsb.start_le

variable (hfree : used sb v b = false)
include hfree

theorem adds_direct (k : Fin 13) (hk : (k : ℕ) < 12)
    (hind : ip.indirect ≠ 0 → ip.indirect ≠ b ∧ ip.indirect ≠ sb.bitmap) :
    Adds sb v ip k b (alloc sb v b) (ip.setAddr k b) where
  free := hfree
  data_le := hdata
  lt_start := hstart
  ptr_eq := by
    have hk12 : (12 : Fin 13) ≠ k := fun h => absurd (congrArg Fin.val h) hk.ne'
    have hindirect : (ip.setAddr k b).indirect = ip.indirect := by
      rw [ip.indirect_setAddr, if_neg hk12]
    funext l
    by_cases hl : l < 12
    · rw [ptr_direct _ _ ⟨l, hl.trans (by decide)⟩ hl, ip.addrs_setAddr, Function.update_apply]
      by_cases hlk : l = k
      · rw [if_pos hlk, if_pos (Fin.ext hlk)]
      · rw [if_neg hlk, if_neg fun h => hlk (congrArg Fin.val h)]
        exact (ptr_direct v ip ⟨l, hl.trans (by decide)⟩ hl).symm
    · rw [Function.update_of_ne (by omega), ptr, ptr, dif_neg hl, dif_neg hl, hindirect]
      by_cases h0 : ip.indirect = 0
      · rw [if_pos h0, if_pos h0]
      · rw [alloc_apply hsb hstart, if_neg (hind h0).1, if_neg (hind h0).2]
  used_eq := fun c => used_alloc hsb hstart hdata
  same := fun s hsb' hbm _ => by
    rw [alloc_apply hsb hstart, if_neg hsb', if_neg hbm]
  fields := rfl

theorem adds_indirect (hind : ip.indirect = 0) :
    Adds sb v ip 140 b (alloc sb v b) (ip.setAddr 12 b) where
  free := hfree
  data_le := hdata
  lt_start := hstart
  ptr_eq := by
    have hindirect : (ip.setAddr 12 b).indirect = b := by rw [ip.indirect_setAddr, if_pos rfl]
    funext l
    by_cases hl : l = 140
    · subst hl
      rw [Function.update_self, ptr_indirect, hindirect]
    · rw [Function.update_of_ne hl, ptr, ptr, hindirect, hind, alloc_apply hsb hstart,
        if_pos rfl, if_pos rfl, Block.word_zero, ite_self]
      by_cases h : l < 12
      · rw [dif_pos h, dif_pos h, ip.addrs_setAddr, if_neg fun h' => h.ne (congrArg Fin.val h')]
      · rw [dif_neg h, dif_neg h, if_neg hl, if_neg hl]
  used_eq := fun c => used_alloc hsb hstart hdata
  same := fun s hsb' hbm _ => by
    rw [alloc_apply hsb hstart, if_neg hsb', if_neg hbm]
  fields := rfl

theorem adds_entry (hj : j < 128) (hind : ip.indirect ≠ 0) (hbm : ip.indirect ≠ sb.bitmap) :
    Adds sb v ip (12 + j) b
      (Function.update (alloc sb v b) ip.indirect ((v ip.indirect).setWord j b)) ip where
  free := hfree
  data_le := hdata
  lt_start := hstart
  ptr_eq := by
    have hb32 : b < 2 ^ 32 := (hstart.trans_le hsb.start_le).trans (by decide)
    funext l
    unfold ptr
    by_cases hl : l < 12
    · rw [dif_pos hl, Function.update_of_ne (by omega), dif_pos hl]
    · rw [dif_neg hl]
      by_cases hl' : l < 140
      · rw [if_pos hl', if_neg hind, Function.update_self, Block.word_setWord _ (by omega) hb32]
        by_cases hlj : l = 12 + j
        · rw [if_pos (by omega), hlj, Function.update_self]
        · rw [if_neg (by omega), Function.update_of_ne hlj, dif_neg hl, if_pos hl', if_neg hind]
      · rw [if_neg hl', Function.update_of_ne (by omega), dif_neg hl, if_neg hl']
  used_eq := fun c hc => by
    rw [← used_alloc hsb hstart hdata hc, hsb.used_eq hc, hsb.used_eq hc,
      Function.update_of_ne hbm.symm]
  same := fun s hsb' hs hne => by
    rw [Function.update_of_ne hne, alloc_apply hsb hstart, if_neg hsb', if_neg hs]
  fields := rfl

end

end Fs

end Xv6Editor
