import Xv6Editor.Fs.Tree

/-!
# Finding and adding blocks

What `bmap` does for a file of a given size.  A file has exactly the blocks that its size needs, so
that `bmap` finds a block inside of the file, and allocates one if the file is about to grow.

* `Grown sb T i v v' ip'` : the file of the inode `i` got more blocks and `ip'` is its inode now;
  everything else is as before.
* `bmap_does` : `bmap` for a block inside of the file, or for the next one.
-/

namespace Xv6Editor

namespace Fs

/-- A file of this size has a `k`-th block. -/
def needs (size k : ℕ) : Prop := k < 140 ∧ 512 * k < size ∨ k = 140 ∧ 512 * 12 < size

/-- The number of blocks of a file of this size. -/
def blocksFor (size : ℕ) : ℕ := (size + 511) / 512 + if 512 * 12 < size then 1 else 0

/-- The file has the blocks that the size needs. -/
def Exact (v : Blocks) (ip : Inode) (size : ℕ) : Prop := ∀ k, ptr v ip k ≠ 0 ↔ needs size k

/-- All the files but that of `i` are as they were, and so are the blocks before the data, except
for the bitmap. -/
structure Frame (sb : Superblock) (T : ℕ → Inode) (i : ℕ) (v v' : Blocks) : Prop where
  others : ∀ j, j < sb.ninodes → j ≠ i → SameFile v v' (T j)
  same : ∀ s, s ≠ 0 → s < sb.data → s ≠ sb.bitmap → v' s = v s

/-- The file of `i` got more blocks. -/
structure Grown (sb : Superblock) (T : ℕ → Inode) (i : ℕ) (v v' : Blocks) (ip' : Inode) :
    Prop where
  wf : Wf sb v' (Function.update T i ip')
  frame : Frame sb T i v v'
  keep : ∀ k, ptr v (T i) k ≠ 0 → ptr v' ip' k = ptr v (T i) k
  fields : ip' = { T i with addrs := ip'.addrs }

/-- What `bmap` does to a file of the given size, for its `bn`-th block. -/
structure Mapped (sb : Superblock) (T : ℕ → Inode) (i : ℕ) (v : Blocks) (size bn : ℕ) (v' : Blocks)
    (ip' : Inode) : Prop extends Grown sb T i v v' ip' where
  exact : Exact v' ip' (max size (512 * bn + 1))
  content : ∀ k, k ≠ 140 → ptr v (T i) k ≠ 0 → v' (ptr v (T i) k) = v (ptr v (T i) k)
  count : (freeBlocks sb v').card + blocksFor (max size (512 * bn + 1)) =
    (freeBlocks sb v).card + blocksFor size

variable {sb : Superblock} {v v' v'' : Blocks} {T : ℕ → Inode} {ip ip' ip'' : Inode}
  {i j k b bn size : ℕ} {S H : Finset ℕ}

namespace Frame

theorem refl (sb : Superblock) (T : ℕ → Inode) (i : ℕ) (v : Blocks) : Frame sb T i v v :=
  ⟨fun j _ _ => .refl v (T j), fun _ _ _ _ => rfl⟩

theorem trans (h : Frame sb T i v v') (h' : Frame sb T i v' v'') : Frame sb T i v v'' :=
  ⟨fun j hj hji => (h.others j hj hji).trans (h'.others j hj hji),
    fun s h0 hs hb => (h'.same s h0 hs hb).trans (h.same s h0 hs hb)⟩

theorem of_update (h : Frame sb (Function.update T i ip) i v v') : Frame sb T i v v' := by
  refine ⟨fun j hj hji => ?_, h.same⟩
  have := h.others j hj hji
  rwa [Function.update_of_ne hji] at this

end Frame

namespace Grown

theorem refl (W : Wf sb v T) : Grown sb T i v v (T i) :=
  ⟨by rwa [Function.update_eq_self], .refl sb T i v, fun _ _ => rfl, rfl⟩

theorem trans (h : Grown sb T i v v' ip')
    (h' : Grown sb (Function.update T i ip') i v' v'' ip'') : Grown sb T i v v'' ip'' := by
  have hT : Function.update T i ip' i = ip' := Function.update_self ..
  obtain ⟨W', F', K', E'⟩ := h'
  rw [hT] at K' E'
  rw [Function.update_idem] at W'
  refine ⟨W', h.frame.trans F'.of_update, fun k hk => ?_, ?_⟩
  · rw [K' k (by rwa [h.keep k hk]), h.keep k hk]
  · rw [E', h.fields]

end Grown

theorem Adds.grown (W : Wf sb v T) (hi : i < sb.ninodes) (A : Adds sb v (T i) k b v' ip')
    (hsb : sb.Ok) (hk : ptr v (T i) k = 0) : Grown sb T i v v' ip' := by
  refine ⟨A.wf W hi hsb, ⟨fun j hj hji => A.sameFile W hi hj hji, fun s h0 hs hb => ?_⟩,
    fun l hl => ?_, A.fields⟩
  · exact A.meta_same W hi hs hb h0
  · rw [A.ptr_eq, Function.update_of_ne]
    rintro rfl
    exact hl hk

/-! ### Running the code -/

theorem Wf.balloc_does (W : Wf sb v T) (hsb : sb.Ok) (F : FirstFree sb v b) (hdata : sb.data ≤ b)
    (hstart : b < sb.start) (hmS : sb.bitmap ∈ S) (hbS : b ∈ S) (hH : H.card ≤ 1)
    (hH' : ∀ s ∈ H, sb.data ≤ s ∧ s ≠ b) : Does sb S v H Code.balloc b (alloc sb v b) H := by
  have hbb : ∀ c, c ≤ b → bblock c sb.ninodes = sb.bitmap :=
    fun c hc => hsb.bblock_eq (hsb.lt_size (hc.trans_lt hstart))
  have hlow : ∀ s, s < sb.data → s ∉ H := fun s hs h => absurd (hH' s h).1 (not_le.2 hs)
  refine Fs.balloc_does hstart (hsb.ne_one hdata) ?_ hbS ?_
    (fun h => (hH' b h).2 rfl) hH (fun c hc => ?_) F hsb.one_lt W.super (hlow 1 hsb.one_lt_data)
  · rw [hbb b le_rfl]
    exact hsb.bitmap_lt.trans_le hsb.data_le
  · rwa [hbb b le_rfl]
  · rw [hbb c hc]
    exact hlow _ hsb.bitmap_lt

theorem bmap_eq (ip : Inode) (hj : j < 128) : Code.bmap ip (12 + j) = do
    let ip ← Code.loadIndirect ip
    let addr ← Code.loadEntry ip j
    return (addr, ip) := by
  have hsub : 12 + j - NDIRECT = j := Nat.add_sub_cancel_left 12 j
  have hd : ¬12 + j < NDIRECT := not_lt.2 (Nat.le_add_right 12 j)
  rw [Code.bmap, dif_neg hd, hsub, if_pos (show j < NINDIRECT from hj)]

theorem bmap_lookup (W : Wf sb v T) (hi : i < sb.ninodes) (hbn : bn < 140)
    (hptr : ptr v (T i) bn ≠ 0) :
    Does sb S v ∅ (Code.bmap (T i) bn) (ptr v (T i) bn, T i) v ∅ := by
  by_cases hd : bn < NDIRECT
  · have hp : ptr v (T i) bn = (T i).addrs ⟨bn, hd.trans (by decide)⟩ :=
      ptr_direct v (T i) ⟨bn, hd.trans (by decide)⟩ hd
    rw [hp] at hptr ⊢
    rw [Code.bmap, dif_pos hd, if_neg hptr]
    exact .pure _
  · have hd' : 12 ≤ bn := not_lt.1 hd
    obtain ⟨j, rfl⟩ : ∃ j, bn = 12 + j := ⟨bn - 12, by omega⟩
    have hj : j < 128 := by omega
    have hind : (T i).indirect ≠ 0 := by
      intro h
      rw [ptr, dif_neg (by omega), if_pos hbn, if_pos h] at hptr
      exact hptr rfl
    have hstart : (T i).indirect < sb.start := by
      rw [← ptr_indirect v (T i)] at hind ⊢
      exact (W.ptr_mem hi hind).2.1
    rw [ptr_entry v hj hind] at hptr ⊢
    rw [bmap_eq (T i) hj, Code.loadIndirect, if_neg hind]
    refine .bind (.pure _) (.bind ?_ (.pure _))
    refine .bind (.bread hstart (Finset.notMem_empty _) (by simp)) ?_
    rw [if_neg hptr]
    exact .bind (.brelse (Finset.notMem_empty _)) (.pure _)

/-- The entry in the indirect block is there afterwards. -/
theorem loadEntry_does (W : Wf sb v T) (hsb : sb.Ok) (F : FirstFree sb v b) (hdata : sb.data ≤ b)
    (hstart : b < sb.start)
    (hind : sb.data ≤ ip.indirect ∧ ip.indirect < sb.start ∧ ip.indirect ≠ b)
    (hword : (v ip.indirect).word j = 0) (hmS : sb.bitmap ∈ S) (hbS : b ∈ S)
    (hiS : ip.indirect ∈ S) :
    Does sb S v ∅ (Code.loadEntry ip j) b
      (Function.update (alloc sb v b) ip.indirect ((v ip.indirect).setWord j b)) ∅ := by
  obtain ⟨hind₁, hind₂, hind₃⟩ := hind
  refine .bind (.bread hind₂ (Finset.notMem_empty _) (by simp)) ?_
  rw [if_pos hword]
  refine .bind (W.balloc_does hsb F hdata hstart hmS hbS (by simp) ?_) ?_
  · intro s hs
    obtain rfl : s = ip.indirect := by simpa using hs
    exact ⟨hind₁, hind₃⟩
  · have hone : ip.indirect ≠ 1 := hsb.ne_one hind₁
    exact .bind (.logWrite hind₂ hone hiS (Finset.mem_insert_self _ _) _)
      (.bind (.brelse (Finset.notMem_empty _)) (.pure _))

/-! ### The three kinds of steps -/

section

variable (W : Wf sb v T) (hsb : sb.Ok) (hi : i < sb.ninodes) (hfree : (freeBlocks sb v).Nonempty)
include W hsb hfree

theorem exists_adds_indirect (hind : (T i).indirect = 0) :
    ∃ b v' ip', Adds sb v (T i) 140 b v' ip' ∧ ∀ S, sb.bitmap ∈ S → b ∈ S →
      Does sb S v ∅ (Code.loadIndirect (T i)) ip' v' ∅ := by
  obtain ⟨b, F, hdata, hstart⟩ := W.exists_firstFree hfree
  refine ⟨b, _, _, adds_indirect hsb hstart hdata F.free hind, fun S hmS hbS => ?_⟩
  rw [Code.loadIndirect, if_pos hind]
  exact .bind (W.balloc_does hsb F hdata hstart hmS hbS (by simp) (by simp)) (.pure _)

include hi

theorem exists_adds_direct (hbn : bn < NDIRECT) (hptr : ptr v (T i) bn = 0) :
    ∃ b v' ip', Adds sb v (T i) bn b v' ip' ∧ ∀ S, sb.bitmap ∈ S → b ∈ S →
      Does sb S v ∅ (Code.bmap (T i) bn) (b, ip') v' ∅ := by
  obtain ⟨b, F, hdata, hstart⟩ := W.exists_firstFree hfree
  have hp : ptr v (T i) bn = (T i).addrs ⟨bn, hbn.trans (by decide)⟩ :=
    ptr_direct v (T i) ⟨bn, hbn.trans (by decide)⟩ hbn
  rw [hp] at hptr
  refine ⟨b, _, _, adds_direct hsb hstart hdata F.free ⟨bn, hbn.trans (by decide)⟩ hbn ?_,
    fun S hmS hbS => ?_⟩
  · intro hind
    rw [← ptr_indirect v (T i)] at hind ⊢
    exact ⟨W.ptr_ne_free F.free hi hind, W.ptr_ne_bitmap hi hind⟩
  · rw [Code.bmap, dif_pos hbn, if_pos hptr]
    exact .bind (W.balloc_does hsb F hdata hstart hmS hbS (by simp) (by simp)) (.pure _)

theorem exists_adds_entry (hj : j < 128) (hind : (T i).indirect ≠ 0)
    (hptr : ptr v (T i) (12 + j) = 0) :
    ∃ b v', Adds sb v (T i) (12 + j) b v' (T i) ∧
      ∀ S, sb.bitmap ∈ S → b ∈ S → (T i).indirect ∈ S →
        Does sb S v ∅ (Code.loadEntry (T i) j) b v' ∅ := by
  obtain ⟨b, F, hdata, hstart⟩ := W.exists_firstFree hfree
  rw [ptr_entry v hj hind] at hptr
  have hne : ptr v (T i) 140 ≠ 0 := hind
  have hbm : (T i).indirect ≠ sb.bitmap := W.ptr_ne_bitmap hi hne
  have hb : (T i).indirect ≠ b := W.ptr_ne_free F.free hi hne
  obtain ⟨h₁, h₂, -⟩ := W.ptr_mem hi hne
  refine ⟨b, _, adds_entry hsb hstart hdata F.free hj hind hbm, fun S hmS hbS hiS => ?_⟩
  exact loadEntry_does W hsb F hdata hstart ⟨h₁, h₂, hb⟩ hptr hmS hbS hiS

end

/-! ### The next block -/

/-- A file that gets its next block, which does not need an indirect block. -/
theorem Adds.mapped (W : Wf sb v T) (hsb : sb.Ok) (hi : i < sb.ninodes) (hbn : bn < 140)
    (hE : Exact v (T i) (512 * bn)) (h12 : bn ≠ 12) (A : Adds sb v (T i) bn b v' ip') :
    Mapped sb T i v (512 * bn) bn v' ip' := by
  have hptr : ptr v (T i) bn = 0 := by
    by_contra h
    have := (hE bn).1 h
    unfold needs at this
    omega
  have hb : b ≠ 0 := hsb.ne_zero A.data_le
  refine ⟨A.grown W hi hsb hptr, fun k => ?_, fun k hk hne => A.data_same W hi hne hk, ?_⟩
  · rw [A.ptr_eq, Function.update_apply]
    split_ifs with hk
    · refine iff_of_true hb ?_
      unfold needs
      omega
    · rw [hE k]
      unfold needs
      omega
  · have := A.card_freeBlocks hsb
    unfold blocksFor
    split_ifs <;> omega

/-- The first block after those that the inode lists: the indirect block comes with it. -/
theorem bmap_twelve (W : Wf sb v T) (hsb : sb.Ok) (hi : i < sb.ninodes)
    (hE : Exact v (T i) (512 * 12)) (hroom : 2 ≤ (freeBlocks sb v).card) :
    ∃ v' ip', Mapped sb T i v (512 * 12) 12 v' ip' ∧
      ∀ S, sb.bitmap ∈ S → ptr v' ip' 12 ∈ S → (ip'.indirect ≠ 0 → ip'.indirect ∈ S) →
        Does sb S v ∅ (Code.bmap (T i) 12) (ptr v' ip' 12, ip') v' ∅ := by
  have hzero : ∀ k, ¬needs (512 * 12) k → ptr v (T i) k = 0 := fun k hk => by
    by_contra h
    exact hk ((hE k).1 h)
  have hind : (T i).indirect = 0 := hzero 140 (by unfold needs; omega)
  obtain ⟨b₁, v₁, ip₁, A₁, hdoes₁⟩ := exists_adds_indirect W hsb
    (Finset.card_pos.1 (Nat.zero_lt_two.trans_le hroom)) hind
  have hT : Function.update T i ip₁ i = ip₁ := Function.update_self ..
  have G₁ := A₁.grown W hi hsb hind
  have hcard₁ := A₁.card_freeBlocks hsb
  have hb₁ : b₁ ≠ 0 := hsb.ne_zero A₁.data_le
  have hind₁ : ip₁.indirect = b₁ := by
    rw [← ptr_indirect v₁, A₁.ptr_eq, Function.update_self]
  have hptr₁ : ptr v₁ (Function.update T i ip₁ i) (12 + 0) = 0 := by
    rw [hT, A₁.ptr_eq, Function.update_of_ne (by decide)]
    exact hzero 12 (by unfold needs; omega)
  obtain ⟨b₂, v₂, A₂, hdoes₂⟩ := exists_adds_entry G₁.wf hsb hi
    (Finset.card_pos.1 (by omega)) (by decide : 0 < 128) (by rwa [hT, hind₁]) hptr₁
  have G₂ := A₂.grown G₁.wf hi hsb hptr₁
  have hcard₂ := A₂.card_freeBlocks hsb
  have hb₂ : b₂ ≠ 0 := hsb.ne_zero A₂.data_le
  have hsame := fun k => A₂.data_same G₁.wf hi (l := k)
  have hp₂ := A₂.ptr_eq
  rw [hT] at G₂ hsame hdoes₂ hp₂
  refine ⟨v₂, ip₁, ⟨G₁.trans G₂, fun k => ?_, fun k hk hne => ?_, ?_⟩, fun S hm hS hiS => ?_⟩
  · rw [hp₂, A₁.ptr_eq, Function.update_apply, Function.update_apply]
    split_ifs with h₁ h₂
    · refine iff_of_true hb₂ ?_
      unfold needs
      omega
    · refine iff_of_true hb₁ ?_
      unfold needs
      omega
    · rw [hE k]
      unfold needs
      omega
  · have hkeep : ptr v₁ ip₁ k = ptr v (T i) k := G₁.keep k hne
    have := hsame k
    rw [hkeep] at this
    rw [this hne hk, A₁.data_same W hi hne hk]
  · have hmore : blocksFor (512 * 12 + 1) = 14 := by decide
    have hless : blocksFor (512 * 12) = 12 := by decide
    rw [max_eq_right (Nat.le_succ _), hmore, hless]
    omega
  · have hb₂S : b₂ ∈ S := by rwa [hp₂, Function.update_self] at hS
    have hb₁S : b₁ ∈ S := hind₁ ▸ hiS (hind₁.trans_ne hb₁)
    rw [hp₂, Function.update_self, bmap_eq (T i) (by decide : 0 < 128)]
    exact .bind (hdoes₁ S hm hb₁S) (.bind (hdoes₂ S hm hb₂S (by rwa [hind₁])) (.pure _))

theorem bmap_next (W : Wf sb v T) (hsb : sb.Ok) (hi : i < sb.ninodes) (hbn : bn < 140)
    (hE : Exact v (T i) (512 * bn))
    (hroom : blocksFor (512 * bn + 1) ≤ blocksFor (512 * bn) + (freeBlocks sb v).card) :
    ∃ v' ip', Mapped sb T i v (512 * bn) bn v' ip' ∧
      ∀ S, sb.bitmap ∈ S → ptr v' ip' bn ∈ S → (ip'.indirect ≠ 0 → ip'.indirect ∈ S) →
        Does sb S v ∅ (Code.bmap (T i) bn) (ptr v' ip' bn, ip') v' ∅ := by
  have hptr : ptr v (T i) bn = 0 := by
    by_contra h
    have := (hE bn).1 h
    unfold needs at this
    omega
  have hcard : (if bn = 12 then 2 else 1) ≤ (freeBlocks sb v).card := by
    unfold blocksFor at hroom
    split_ifs at hroom ⊢ <;> omega
  by_cases h12 : bn = 12
  · subst h12
    exact bmap_twelve W hsb hi hE hcard
  rw [if_neg h12] at hcard
  have hfree := Finset.card_pos.1 hcard
  by_cases hd : bn < NDIRECT
  · obtain ⟨b, v', ip', A, hdoes⟩ := exists_adds_direct W hsb hi hfree hd hptr
    have hb : ptr v' ip' bn = b := by rw [A.ptr_eq, Function.update_self]
    refine ⟨v', ip', A.mapped W hsb hi hbn hE h12, ?_⟩
    rw [hb]
    exact fun S hm hS _ => hdoes S hm hS
  · obtain ⟨j, rfl⟩ : ∃ j, bn = 12 + j := ⟨bn - 12, by rw [NDIRECT] at hd; omega⟩
    have hj : j < 128 := by omega
    have hind : (T i).indirect ≠ 0 := (hE 140).2 (by unfold needs; omega)
    obtain ⟨b, v', A, hdoes⟩ := exists_adds_entry W hsb hi hfree hj hind hptr
    have hb : ptr v' (T i) (12 + j) = b := by rw [A.ptr_eq, Function.update_self]
    refine ⟨v', T i, A.mapped W hsb hi hbn hE h12, ?_⟩
    rw [hb, bmap_eq (T i) hj, Code.loadIndirect, if_neg hind]
    intro S hm hS hiS
    exact .bind (.pure _) (.bind (hdoes S hm hS (hiS hind)) (.pure _))

/-- `bmap` for a block inside of the file, or for the next one. -/
theorem bmap_does (W : Wf sb v T) (hsb : sb.Ok) (hi : i < sb.ninodes) (hbn : bn < 140)
    (hE : Exact v (T i) size) (hle : 512 * bn ≤ size)
    (hroom : blocksFor (max size (512 * bn + 1)) ≤ blocksFor size + (freeBlocks sb v).card) :
    ∃ v' ip', Mapped sb T i v size bn v' ip' ∧
      ∀ S, sb.bitmap ∈ S → ptr v' ip' bn ∈ S → (ip'.indirect ≠ 0 → ip'.indirect ∈ S) →
        Does sb S v ∅ (Code.bmap (T i) bn) (ptr v' ip' bn, ip') v' ∅ := by
  rcases hle.lt_or_eq with hlt | rfl
  · have hmax : max size (512 * bn + 1) = size := max_eq_left hlt
    refine ⟨v, T i, ⟨.refl W, by rwa [hmax], fun _ _ _ => rfl, by rw [hmax]⟩, fun S _ _ _ => ?_⟩
    exact bmap_lookup W hi hbn ((hE bn).2 (.inl ⟨hbn, hlt⟩))
  · rw [max_eq_right (Nat.le_succ _)] at hroom
    exact bmap_next W hsb hi hbn hE hroom

end Fs

end Xv6Editor
