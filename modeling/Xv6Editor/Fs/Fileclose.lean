import Xv6Editor.Fs.Filewrite

/-!
# Closing a file

`fileclose` of the last reference to a file that has no links any more: `itrunc` gives its blocks
back, one after the other, and its inode becomes free.  All of this is one transaction, of two
blocks only: the bitmap and the block of the inode.

* `freeAll sb v bs` : the blocks `bs` have become free.
* `itrunc_does` : `itrunc` frees the blocks of the file.
* `fileclose_unlinked` : the file is gone, its blocks are free and the other files are as they were,
  or, after a power failure, nothing has happened yet.
-/

namespace Xv6Editor

namespace Fs

/-- The blocks after all of `bs` have been freed. -/
def freeAll (sb : Superblock) (v : Blocks) (bs : List ℕ) : Blocks := bs.foldl (free sb) v

/-- The blocks can be freed one after the other. -/
structure Freeable (sb : Superblock) (v : Blocks) (bs : List ℕ) : Prop where
  nodup : bs.Nodup
  data_le : ∀ b ∈ bs, sb.data ≤ b
  lt_start : ∀ b ∈ bs, b < sb.start
  used : ∀ b ∈ bs, used sb v b = true

/-- The blocks of a file. -/
def blocksOf (v : Blocks) (ip : Inode) : List ℕ :=
  ((List.range 141).map (ptr v ip)).filter (· ≠ 0)

/-- Those that the indirect block lists, and the indirect block. -/
def listed (v : Blocks) (ip : Inode) : List ℕ :=
  if ip.indirect = 0 then []
  else ((List.range NINDIRECT).map (v ip.indirect).word).filter (· ≠ 0) ++ [ip.indirect]

/-- The inode without the blocks of a list. -/
def Inode.clear (ip : Inode) (ks : List (Fin 13)) : Inode :=
  { ip with addrs := fun k => if k ∈ ks then 0 else ip.addrs k }

/-- The inode of a file without blocks. -/
def Inode.empty (ip : Inode) : Inode := { ip with size := 0, addrs := fun _ => 0 }

/-- `fileclose(f)` of the last reference to a file on the disk, and to its inode. -/
def fileclose (f : File) (m : Machine) : Except Stop (Unit × Machine) :=
  transaction (match f.ip with
    | some ip => Code.iput f.inum ip
    | none => return ()) m

/-- The file of `i` is gone. -/
structure Freed (sb : Superblock) (i : ℕ) (v v' : Blocks) : Prop where
  sane : Sane sb v'
  inode : inodeAt v' i = { (inodeAt v i).empty with type := 0 }
  others : ∀ j, j < sb.ninodes → j ≠ i →
    inodeAt v' j = inodeAt v j ∧ content v' (inodeAt v' j) = content v (inodeAt v j)
  free : freeBlocks sb v' = freeBlocks sb v ∪ (blocksOf v (inodeAt v i)).toFinset

variable {sb : Superblock} {v v' : Blocks} {T : ℕ → Inode} {ip : Inode} {i b c s : ℕ}
  {bs bs' : List ℕ} {S H : Finset ℕ}

theorem Inode.addrs_clear (ip : Inode) (ks : List (Fin 13)) (k : Fin 13) :
    (ip.clear ks).addrs k = if k ∈ ks then 0 else ip.addrs k := rfl

/-! ### Single blocks -/

section

variable (hsb : sb.Ok) (hb : b < sb.start)
include hsb hb

theorem free_apply (s : ℕ) :
    free sb v b s = if s = sb.bitmap then (v sb.bitmap).clearBit b else v s := by
  rw [free, hsb.bblock_eq (hsb.lt_size hb), Nat.mod_eq_of_lt (hb.trans_le hsb.start_le),
    Function.update_apply]

theorem used_free (hc : c < sb.size) : used sb (free sb v b) c = (c != b && used sb v c) := by
  rw [hsb.used_eq hc, hsb.used_eq hc, free_apply hsb hb, if_pos rfl, Block.bit_clearBit]
  exact hb.trans_le hsb.start_le

theorem free_does (hu : used sb v b = true) (hv : .ofSector (v 1) = sb) (hS : sb.bitmap ∈ S)
    (hH : H.card ≤ 1) (hH' : ∀ s ∈ H, sb.data ≤ s) :
    Does sb S v H (Code.bfree b) () (free sb v b) H := by
  have hbb := hsb.bblock_eq (hsb.lt_size hb)
  have hlow : ∀ s, s < sb.data → s ∉ H := fun s hs h => absurd (hH' s h) (not_le.2 hs)
  refine bfree_does hu ?_ ?_ ?_ hH hsb.one_lt hv (hlow 1 hsb.one_lt_data)
  · rw [hbb]
    exact hsb.bitmap_lt.trans_le hsb.data_le
  · rwa [hbb]
  · rw [hbb]
    exact hlow _ hsb.bitmap_lt

end

/-! ### Lists of blocks -/

theorem freeAll_append (v : Blocks) (bs bs' : List ℕ) :
    freeAll sb v (bs ++ bs') = freeAll sb (freeAll sb v bs) bs' := List.foldl_append

theorem freeAll_of_ne (hsb : sb.Ok) (hlt : ∀ b ∈ bs, b < sb.start) (hs : s ≠ sb.bitmap) :
    freeAll sb v bs s = v s := by
  induction bs generalizing v with
  | nil => rfl
  | cons b bs ih =>
    rw [List.forall_mem_cons] at hlt
    rw [freeAll, List.foldl_cons]
    exact (ih hlt.2).trans (by rw [free_apply hsb hlt.1, if_neg hs])

theorem used_freeAll (hsb : sb.Ok) (hlt : ∀ b ∈ bs, b < sb.start) (hc : c < sb.size) :
    used sb (freeAll sb v bs) c = (decide (c ∉ bs) && used sb v c) := by
  induction bs generalizing v with
  | nil => simp [freeAll]
  | cons b bs ih =>
    rw [List.forall_mem_cons] at hlt
    rw [freeAll, List.foldl_cons]
    refine (ih hlt.2).trans ?_
    rw [used_free hsb hlt.1 hc, ← Bool.and_assoc]
    congr 1
    rw [Bool.eq_iff_iff]
    simp [and_comm]

namespace Freeable

theorem tail (hsb : sb.Ok) (h : Freeable sb v (b :: bs)) : Freeable sb (free sb v b) bs := by
  obtain ⟨hb, hn⟩ := List.nodup_cons.1 h.nodup
  have hmem : ∀ c ∈ bs, c ∈ b :: bs := fun c hc => List.mem_cons_of_mem b hc
  refine ⟨hn, fun c hc => h.data_le c (hmem c hc), fun c hc => h.lt_start c (hmem c hc),
    fun c hc => ?_⟩
  have hne : c ≠ b := ne_of_mem_of_not_mem hc hb
  rw [used_free hsb (h.lt_start b List.mem_cons_self) (hsb.lt_size (h.lt_start c (hmem c hc))),
    h.used c (hmem c hc), bne_iff_ne.2 hne, Bool.true_and]

theorem left (h : Freeable sb v (bs ++ bs')) : Freeable sb v bs :=
  ⟨h.nodup.of_append_left, fun b hb => h.data_le b (List.mem_append_left _ hb),
    fun b hb => h.lt_start b (List.mem_append_left _ hb),
    fun b hb => h.used b (List.mem_append_left _ hb)⟩

/-- Freeing the first of them does not keep the others from being freed. -/
theorem right (hsb : sb.Ok) (h : Freeable sb v (bs ++ bs')) :
    Freeable sb (freeAll sb v bs) bs' := by
  induction bs generalizing v with
  | nil => exact h
  | cons b bs ih => exact ih (h.tail hsb)

end Freeable

/-! ### The loops of `itrunc` -/

theorem ofSector_free (hsb : sb.Ok) (hb : b < sb.start) (hv : .ofSector (v 1) = sb) :
    .ofSector (free sb v b 1) = sb := by
  rwa [free_apply hsb hb, if_neg hsb.one_lt_bitmap.ne]

section

variable (hsb : sb.Ok) (hS : sb.bitmap ∈ S)
include hsb hS

theorem freeEntries_does {js : List ℕ} (bp : Sector) (hv : .ofSector (v 1) = sb) (hH : H.card ≤ 1)
    (hH' : ∀ s ∈ H, sb.data ≤ s) (h : Freeable sb v ((js.map bp.word).filter (· ≠ 0))) :
    Does sb S v H (Code.freeEntries bp js) ()
      (freeAll sb v ((js.map bp.word).filter (· ≠ 0))) H := by
  induction js generalizing v with
  | nil => exact .pure _
  | cons j js ih =>
    rw [Code.freeEntries]
    rw [List.map_cons] at h ⊢
    by_cases hj : bp.word j ≠ 0
    · rw [List.filter_cons_of_pos (by simpa using hj)] at h ⊢
      have hlt := h.lt_start _ List.mem_cons_self
      rw [if_pos hj]
      exact .bind (free_does hsb hlt (h.used _ List.mem_cons_self) hv hS hH hH')
        (ih (ofSector_free hsb hlt hv) (h.tail hsb))
    · rw [List.filter_cons_of_neg (by simpa using hj)] at h ⊢
      rw [if_neg hj]
      exact ih hv h

theorem freeDirect_does {ks : List (Fin 13)} (hks : ks.Nodup) (hv : .ofSector (v 1) = sb)
    (h : Freeable sb v ((ks.map ip.addrs).filter (· ≠ 0))) :
    Does sb S v ∅ (Code.freeDirect ip ks) (ip.clear ks)
      (freeAll sb v ((ks.map ip.addrs).filter (· ≠ 0))) ∅ := by
  induction ks generalizing ip v with
  | nil =>
    have hclear : ip.clear [] = ip := by simp [Inode.clear]
    rw [hclear]
    exact .pure _
  | cons k ks ih =>
    obtain ⟨hk, hks⟩ := List.nodup_cons.1 hks
    rw [Code.freeDirect]
    rw [List.map_cons] at h ⊢
    by_cases ha : ip.addrs k ≠ 0
    · rw [List.filter_cons_of_pos (by simpa using ha)] at h ⊢
      have hlt := h.lt_start _ List.mem_cons_self
      have hmap : ks.map (ip.setAddr k 0).addrs = ks.map ip.addrs := by
        refine List.map_congr_left fun l hl => ?_
        rw [ip.addrs_setAddr, if_neg (ne_of_mem_of_not_mem hl hk)]
      have hclear : (ip.setAddr k 0).clear ks = ip.clear (k :: ks) := by
        rw [Inode.clear, Inode.clear]
        congr 1
        funext l
        rw [ip.addrs_setAddr]
        by_cases hl : l = k <;> simp [hl]
      have hrest := h.tail hsb
      rw [← hmap] at hrest
      have := ih hks (ofSector_free hsb hlt hv) hrest
      rw [hclear, hmap] at this
      rw [if_pos ha]
      exact .bind (free_does hsb hlt (h.used _ List.mem_cons_self) hv hS (by simp) (by simp)) this
    · have hzero : ip.addrs k = 0 := not_not.1 ha
      have hclear : ip.clear ks = ip.clear (k :: ks) := by
        rw [Inode.clear, Inode.clear]
        congr 1
        funext l
        by_cases hl : l = k <;> simp [hl, hzero]
      rw [List.filter_cons_of_neg (by simpa using hzero)] at h ⊢
      rw [if_neg ha, ← hclear]
      exact ih hks hv h

theorem freeIndirect_does (hv : .ofSector (v 1) = sb) (h : Freeable sb v (listed v ip)) :
    Does sb S v ∅ (Code.freeIndirect ip) (ip.setAddr 12 0) (freeAll sb v (listed v ip)) ∅ := by
  rw [Code.freeIndirect]
  by_cases hind : ip.indirect = 0
  · have hset : ip.setAddr 12 0 = ip := by
      have hzero : ip.addrs 12 = 0 := hind
      have hupd : Function.update ip.addrs 12 0 = ip.addrs :=
        Function.update_eq_self_iff.2 hzero.symm
      rw [Inode.setAddr, hupd]
    rw [listed, if_pos hind, if_neg (not_not.2 hind), hset]
    exact .pure _
  · have hlisted : listed v ip = ((List.range NINDIRECT).map (v ip.indirect).word).filter (· ≠ 0) ++
        [ip.indirect] := if_neg hind
    rw [hlisted] at h ⊢
    have hlast := h.right hsb
    have hlt := hlast.lt_start _ List.mem_cons_self
    have hdata := hlast.data_le _ List.mem_cons_self
    have hv' := (congrArg Superblock.ofSector
      (freeAll_of_ne hsb h.left.lt_start hsb.one_lt_bitmap.ne)).trans hv
    have hloop := freeEntries_does hsb hS (v ip.indirect) hv
      (Finset.card_singleton ip.indirect).le (by simpa using hdata) h.left
    rw [freeAll_append, if_pos (hind : ip.indirect ≠ 0)]
    exact .bind (.bread hlt (Finset.notMem_empty _) (by simp)) (.bind hloop
      (.bind (.brelse (Finset.notMem_empty _)) (.bind (free_does hsb hlt
        (hlast.used _ List.mem_cons_self) hv' hS (by simp) (by simp)) (.pure _))))

end

/-! ### The blocks of a file -/

theorem ptr_of_le (v : Blocks) (ip : Inode) {k : ℕ} (h : 141 ≤ k) : ptr v ip k = 0 := by
  rw [ptr, dif_neg (by omega), if_neg (by omega), if_neg (by omega)]

theorem mem_blocksOf : b ∈ blocksOf v ip ↔ b ≠ 0 ∧ ∃ k, ptr v ip k = b := by
  simp only [blocksOf, List.mem_filter, List.mem_map, List.mem_range, decide_eq_true_eq]
  constructor
  · rintro ⟨⟨k, -, hk⟩, hb⟩
    exact ⟨hb, k, hk⟩
  · rintro ⟨hb, k, rfl⟩
    refine ⟨⟨k, ?_, rfl⟩, hb⟩
    by_contra h
    exact hb (ptr_of_le v ip (not_lt.1 h))

theorem blocksOf_eq (v : Blocks) (ip : Inode) :
    blocksOf v ip =
      ((List.ofFn Fin.castSucc : List (Fin 13)).map ip.addrs).filter (· ≠ 0) ++ listed v ip := by
  have hrange : List.range 141 =
      List.range 12 ++ ((List.range NINDIRECT).map (12 + ·) ++ [140]) := by decide
  have hdirect : (List.range 12).map (ptr v ip) =
      (List.ofFn Fin.castSucc : List (Fin 13)).map ip.addrs := rfl
  rw [blocksOf, hrange, List.map_append, List.filter_append, hdirect]
  congr 1
  rw [List.map_append, List.filter_append, List.map_map, List.map_singleton, ptr_indirect, listed]
  split_ifs with hind
  · have hzero : (List.range NINDIRECT).map (ptr v ip ∘ (12 + ·)) =
        (List.range NINDIRECT).map fun _ => 0 := by
      refine List.map_congr_left fun j hj => ?_
      have hj : j < 128 := List.mem_range.1 hj
      change ptr v ip (12 + j) = 0
      rw [ptr, dif_neg (by omega), if_pos (by omega), if_pos hind]
    rw [hzero, hind]
    simp
  · have hentry : (List.range NINDIRECT).map (ptr v ip ∘ (12 + ·)) =
        (List.range NINDIRECT).map (v ip.indirect).word :=
      List.map_congr_left fun j hj => ptr_entry v (List.mem_range.1 hj) hind
    rw [hentry, List.filter_cons_of_pos (by simpa using hind), List.filter_nil]

namespace Wf

section

variable (W : Wf sb v T) (hi : i < sb.ninodes)
include W hi

theorem freeable : Freeable sb v (blocksOf v (T i)) := by
  have hmem : ∀ b ∈ blocksOf v (T i), sb.data ≤ b ∧ b < sb.start ∧ used sb v b = true := by
    intro b hb
    obtain ⟨hb, k, rfl⟩ := mem_blocksOf.1 hb
    exact W.ptr_mem hi hb
  refine ⟨?_, fun b hb => (hmem b hb).1, fun b hb => (hmem b hb).2.1, fun b hb => (hmem b hb).2.2⟩
  rw [blocksOf, List.filter_map]
  refine List.Nodup.map_on (fun k hk l _ h => ?_) (List.nodup_range.filter _)
  have hk : ptr v (T i) k ≠ 0 := by simpa using (List.mem_filter.1 hk).2
  exact (W.ptr_inj hi hi hk h).2

theorem itrunc_does (hsb : sb.Ok) (hS : sb.bitmap ∈ S) (hS' : iblock i ∈ S) :
    Does sb S v ∅ (Code.itrunc i (T i)) (T i).empty
      (Fs.store (freeAll sb v (blocksOf v (T i))) i (T i).empty) ∅ := by
  have hfree := W.freeable hi
  rw [blocksOf_eq] at hfree ⊢
  have hdirect := freeDirect_does hsb hS (List.nodup_ofFn.2 (Fin.castSucc_injective 12)) W.super
    hfree.left
  obtain ⟨ip₁, hip₁⟩ : ∃ ip₁, ip₁ = (T i).clear (List.ofFn Fin.castSucc) := ⟨_, rfl⟩
  obtain ⟨v₁, hv₁⟩ : ∃ v₁, v₁ = freeAll sb v
    (((List.ofFn Fin.castSucc : List (Fin 13)).map (T i).addrs).filter (· ≠ 0)) := ⟨_, rfl⟩
  have hsame : ∀ s, s ≠ sb.bitmap → v₁ s = v s := by
    intro s hs
    rw [hv₁, freeAll_of_ne hsb hfree.left.lt_start hs]
  have hind : ip₁.indirect = (T i).indirect := by
    have hlast : (12 : Fin 13) ∉ (List.ofFn Fin.castSucc : List (Fin 13)) := by decide
    rw [hip₁, Inode.indirect, Inode.addrs_clear, if_neg hlast, Inode.indirect]
  have hlisted : listed v₁ ip₁ = listed v (T i) := by
    rw [listed, listed, hind]
    split_ifs with h
    · rfl
    · have hne : (T i).indirect ≠ sb.bitmap := W.ptr_ne_bitmap (k := 140) hi h
      rw [hsame _ hne]
  have hrest := hfree.right hsb
  rw [← hv₁, ← hlisted] at hrest
  have hindirect := freeIndirect_does hsb hS
    ((congrArg Superblock.ofSector (hsame 1 hsb.one_lt_bitmap.ne)).trans W.super) hrest
  have hempty : { ip₁.setAddr 12 0 with size := 0 } = (T i).empty := by
    have haddrs : (ip₁.setAddr 12 0).addrs = fun _ => 0 := by
      funext k
      rw [ip₁.addrs_setAddr, hip₁]
      by_cases hk : k = 12
      · rw [if_pos hk]
      · rw [if_neg hk]
        exact if_pos ((List.mem_ofFn' _ _).2 ⟨k.castPred hk, Fin.castSucc_castPred k hk⟩)
    simp only [haddrs, Inode.empty]
    rw [hip₁]
    rfl
  rw [freeAll_append, ← hv₁, ← hlisted]
  refine .bind (hv₁ ▸ hip₁ ▸ hdirect) (.bind hindirect ?_)
  rw [hempty]
  exact .bind (iupdate_does hsb hi hS' _) (.pure _)

variable (hsb : sb.Ok)
include hsb

/-- The blocks that are not those of the inode, nor the bitmap. -/
theorem freeAll_same (hs : s ≠ sb.bitmap) : freeAll sb v (blocksOf v (T i)) s = v s :=
  freeAll_of_ne hsb (W.freeable hi).lt_start hs

theorem sameFile_freeAll {j : ℕ} (hj : j < sb.ninodes) :
    SameFile v (freeAll sb v (blocksOf v (T i))) (T j) := by
  intro k hk
  exact W.freeAll_same hi hsb (W.ptr_ne_bitmap hj hk)

theorem used_freeAll_iff (hc : c < sb.size) :
    used sb (freeAll sb v (blocksOf v (T i))) c = true ↔
      c ∉ blocksOf v (T i) ∧ used sb v c = true := by
  rw [used_freeAll hsb (W.freeable hi).lt_start hc, Bool.and_eq_true, decide_eq_true_eq]

theorem own_freeAll (hip : ∀ k, ip.addrs k = 0) {x : ℕ × ℕ}
    (hx : own sb (freeAll sb v (blocksOf v (T i))) (Function.update T i ip) x ≠ 0) :
    x.1 < sb.ninodes ∧ x.1 ≠ i ∧
      own sb (freeAll sb v (blocksOf v (T i))) (Function.update T i ip) x = own sb v T x := by
  obtain ⟨hlt, hne⟩ := of_own_update_ne hip hx
  refine ⟨hlt, hne, ?_⟩
  rw [own, own, Function.update_of_ne hne, (W.sameFile_freeAll hi hsb hlt).ptr_eq]

theorem freeAll_wf (hip : ∀ k, ip.addrs k = 0) :
    Wf sb (freeAll sb v (blocksOf v (T i))) (Function.update T i ip) := by
  refine ⟨?_, fun b hb => ?_, W.owns.drop (fun x hx => ?_) fun x hx hU => ?_⟩
  · rw [W.freeAll_same hi hsb hsb.one_lt_bitmap.ne, W.super]
  · have hlow : b ∉ blocksOf v (T i) := fun h => absurd ((W.freeable hi).data_le b h) (not_le.2 hb)
    have hsize := hsb.lt_size (hb.trans_le hsb.data_le)
    exact (W.used_freeAll_iff hi hsb hsize).2 ⟨hlow, W.reserved b hb⟩
  · exact (W.own_freeAll hi hsb hip hx).2.2
  · obtain ⟨hlt, hne, heq⟩ := W.own_freeAll hi hsb hip hx
    obtain ⟨hdata, hstart, hused⟩ := hU
    refine ⟨hdata, hstart, (W.used_freeAll_iff hi hsb (hsb.lt_size hstart)).2 ⟨?_, hused⟩⟩
    intro hmem
    obtain ⟨-, k, hk⟩ := mem_blocksOf.1 hmem
    rw [heq] at hx
    rw [own, if_pos hlt] at hx hk
    exact hne (W.ptr_inj hlt hi hx hk.symm).1

theorem freeBlocks_freeAll :
    freeBlocks sb (freeAll sb v (blocksOf v (T i))) =
      freeBlocks sb v ∪ (blocksOf v (T i)).toFinset := by
  have hfree := W.freeable hi
  ext b
  simp only [freeBlocks, Finset.mem_union, Finset.mem_filter, Finset.mem_Ico, List.mem_toFinset,
    ← Bool.not_eq_true]
  constructor
  · rintro ⟨hb, hused⟩
    rw [W.used_freeAll_iff hi hsb (hsb.lt_size hb.2), not_and'] at hused
    by_cases h : used sb v b = true
    · exact .inr (not_not.1 (hused h))
    · exact .inl ⟨hb, h⟩
  · rintro (⟨hb, hused⟩ | hmem)
    · refine ⟨hb, ?_⟩
      rw [W.used_freeAll_iff hi hsb (hsb.lt_size hb.2)]
      exact fun h => hused h.2
    · have hb := hfree.lt_start b hmem
      refine ⟨⟨hfree.data_le b hmem, hb⟩, ?_⟩
      rw [W.used_freeAll_iff hi hsb (hsb.lt_size hb)]
      exact fun h => h.1 hmem

end

end Wf

/-! ### The transaction of `fileclose` -/

/-- The inode is written twice, once by `itrunc` and once by `iput`. -/
theorem Sane.freed (F : Sane sb v) (hsb : sb.Ok) (hi : i < sb.ninodes)
    (hip : ip = { (inodeAt v i).empty with type := 0 }) :
    Freed sb i v (Fs.store (Fs.store (freeAll sb v (blocksOf v (inodeAt v i))) i
      (inodeAt v i).empty) i ip) := by
  obtain ⟨v₁, hv₁⟩ : ∃ v₁, v₁ = freeAll sb v (blocksOf v (inodeAt v i)) := ⟨_, rfl⟩
  have haddrs : ∀ k, ip.addrs k = 0 := fun k => by rw [hip]; rfl
  have hsize : ip.size = 0 := by rw [hip]; rfl
  have hsmall : (inodeAt v i).Small := getInode_small _ _
  have hempty : (inodeAt v i).empty.Small :=
    { hsmall with size := Nat.two_pow_pos 32, addrs := fun _ => Nat.two_pow_pos 32 }
  have hzero : ip.Small := hip ▸ { hempty with type := Nat.two_pow_pos 16 }
  have W₁ : Wf sb v₁ (Function.update (inodeAt v) i ip) := hv₁ ▸ F.wf.freeAll_wf hi hsb haddrs
  have W₂ := W₁.store hsb hi (inodeAt v i).empty
  have W₃ := W₂.store hsb hi ip
  rw [← hv₁]
  have hinode : ∀ j, j < sb.ninodes →
      inodeAt (Fs.store (Fs.store v₁ i (inodeAt v i).empty) i ip) j =
        Function.update (inodeAt v) i ip j := by
    intro j hj
    rw [Fs.store, inodeAt_update hzero, Function.update_apply]
    split_ifs with hji
    · rfl
    · rw [Fs.store, inodeAt_update hempty, if_neg hji, inodeAt, hv₁,
        F.wf.freeAll_same hi hsb (iblock_lt hj).ne]
      rfl
  have hsame : ∀ j, j < sb.ninodes → j ≠ i →
      SameFile v (Fs.store (Fs.store v₁ i (inodeAt v i).empty) i ip) (inodeAt v j) := by
    intro j hj hji
    have h₁ := F.wf.sameFile_freeAll hi hsb hj
    have h₂ := W₁.sameFile_store hsb hi (inodeAt v i).empty hj
    have h₃ := W₂.sameFile_store hsb hi ip hj
    rw [Function.update_of_ne hji] at h₂ h₃
    rw [← hv₁] at h₁
    exact (h₁.trans h₂).trans h₃
  refine ⟨F.of_update hsb W₃ hinode hsame (.of_addrs haddrs hsize _) (by omega), ?_,
    fun j hj hji => ?_, ?_⟩
  · rw [hinode i hi, Function.update_self, hip]
  · rw [hinode j hj, Function.update_of_ne hji]
    exact ⟨rfl, (hsame j hj hji).content_eq (F.exact j hj) (F.size_le j hj)⟩
  · rw [freeBlocks_store hsb hi, freeBlocks_store hsb hi, hv₁, F.wf.freeBlocks_freeAll hi hsb]

theorem Sane.iput_does (F : Sane sb v) (hsb : sb.Ok) (hi : i < sb.ninodes)
    (hlink : (inodeAt v i).nlink = 0) :
    ∃ v', Freed sb i v v' ∧
      Does sb {sb.bitmap, iblock i} v ∅ (Code.iput i (inodeAt v i)) () v' ∅ := by
  have hS : iblock i ∈ ({sb.bitmap, iblock i} : Finset ℕ) :=
    Finset.mem_insert_of_mem (Finset.mem_singleton_self _)
  refine ⟨_, F.freed hsb hi rfl, ?_⟩
  rw [Code.iput, if_pos hlink]
  exact .bind (F.wf.itrunc_does hi hsb (Finset.mem_insert_self _ _) hS)
    (iupdate_does hsb hi hS _)

/-- The fields of an inode that do not say where its blocks are. -/
theorem Sane.store (F : Sane sb v) (hsb : sb.Ok) (hi : i < sb.ninodes) (hs : ip.Small)
    (hsize : ip.size = (inodeAt v i).size) (haddrs : ip.addrs = (inodeAt v i).addrs) :
    Sane sb (Fs.store v i ip) := by
  have hptr : ptr v ip = ptr v (inodeAt v i) := by
    funext k
    rw [ptr, ptr, Inode.indirect, Inode.indirect, haddrs]
  have W : Wf sb v (Function.update (inodeAt v) i ip) := by
    refine F.wf.congr rfl (fun _ _ => rfl) hsb fun j _ => ?_
    by_cases hji : j = i
    · rw [hji, Function.update_self, hptr]
    · rw [Function.update_of_ne hji]
  have hfile : SameFile v (Fs.store v i ip) ip := by
    have := W.sameFile_store hsb hi ip hi
    rwa [Function.update_self] at this
  refine F.of_update hsb (W.store hsb hi ip) (fun j _ => ?_)
    (fun j hj _ => F.wf.sameFile_store hsb hi ip hj) ?_ ?_
  · rw [Fs.store, inodeAt_update hs, Function.update_apply]
  · rw [Exact, hfile.ptr_eq, hptr, hsize]
    exact F.exact i hi
  · rw [hsize]
    exact F.size_le i hi

/-- `fileclose` of a file without links: the file is gone, its blocks are free, and the other files
are as they were.  Only a power failure can keep it from that, and then recovery finds the file as
it was, or gone. -/
theorem fileclose_unlinked {f : File} {m : Machine} (hsb : sb.Ok) (F : Sane sb v)
    (Q : Quiet sb v m) (hi : f.inum < sb.ninodes) (hip : f.ip = some (inodeAt v f.inum))
    (hlink : (inodeAt v f.inum).nlink = 0) :
    ∃ v', Freed sb f.inum v v' ∧
      EnsuresOr (fun r => Quiet sb v' r.2)
        (Cut (m.power = none) fun d => Durable sb v d ∨ Durable sb v' d) (fileclose f m) := by
  obtain ⟨v', hfreed, hdoes⟩ := F.iput_does hsb hi hlink
  have hcard : ({sb.bitmap, iblock f.inum} : Finset ℕ).card ≤ 2 := Finset.card_le_two
  have hnlog := hsb.nlog
  refine ⟨v', hfreed, ?_⟩
  rw [fileclose, hip]
  exact (hdoes.transaction (by omega) (by omega) hsb.one_lt Q id).imp (fun r hr => hr.2.1)
    fun e he => he

/-- A file that is not empty has a block, and it is in use. -/
theorem Sane.exists_block (F : Sane sb v) (hi : i < sb.ninodes) (hsize : 0 < (inodeAt v i).size) :
    ∃ b ∈ blocksOf v (inodeAt v i), b ∉ freeBlocks sb v := by
  have hptr : ptr v (inodeAt v i) 0 ≠ 0 := (F.exact i hi 0).2 (by unfold needs; omega)
  have hmem : ptr v (inodeAt v i) 0 ∈ blocksOf v (inodeAt v i) := mem_blocksOf.2 ⟨hptr, 0, rfl⟩
  refine ⟨_, hmem, fun hfree => ?_⟩
  have hused := (F.wf.freeable hi).used _ hmem
  cases hused.symm.trans (Finset.mem_filter.1 hfree).2

/-- Two bytes are written to the empty file.  It loses its link while it is open, and is closed:
the block of the bytes is free again. -/
theorem fileclose_unlinked_written : ∃ m r ip m₁ v₁ r' v' b,
    initlog (boot (smallDisk mkfsSuper) none) = .ok m ∧
      filewrite ⟨true, true, 1, none, 0⟩ [104, 105] m = .ok r ∧
        transaction (Code.iupdate 1 ip) r.2.2 = .ok ((), m₁) ∧ Quiet mkfsSuper v₁ m₁ ∧
          inodeAt v₁ 1 = ip ∧ ip.size = 2 ∧ b ∉ freeBlocks mkfsSuper v₁ ∧
            fileclose ⟨true, true, 1, some ip, 2⟩ m₁ = .ok r' ∧ Quiet mkfsSuper v' r'.2 ∧
              (inodeAt v' 1).type = 0 ∧ b ∈ freeBlocks mkfsSuper v' := by
  have hsb := mkfsSuper_ok
  have hone := one_lt_ninodes
  obtain ⟨src, hsrc⟩ : ∃ src : List UInt8, src = [104, 105] := ⟨_, rfl⟩
  obtain ⟨m, r, v, hm, hr, W, Q, hp⟩ := exists_written src (by rw [hsrc]; decide)
  have hsize : (inodeAt v 1).size = 2 := by
    rw [W.size_eq, inodeAt_smallDisk hone, hsrc]
    rfl
  -- the link is removed
  obtain ⟨ip, hip⟩ : ∃ ip : Inode, ip = { inodeAt v 1 with nlink := 0 } := ⟨_, rfl⟩
  have hsmall : ip.Small :=
    hip ▸ { (getInode_small _ _ : (inodeAt v 1).Small) with nlink := Nat.two_pow_pos 16 }
  have F := W.sane.store hsb hone hsmall (by rw [hip]) (by rw [hip])
  have hip' : inodeAt (store v 1 ip) 1 = ip := by
    rw [store, inodeAt_update hsmall, if_pos rfl]
  have hdoes := iupdate_does (v := v) hsb hone (Finset.mem_singleton_self _) ip
  have hcard : ({iblock 1} : Finset ℕ).card = 1 := Finset.card_singleton _
  obtain ⟨m₁, hm₁, Q₁, hp₁⟩ :=
    hdoes.exists_transaction (by omega) (by rw [hcard]; decide) hsb.one_lt Q hp
  obtain ⟨b, hb, hused⟩ := F.exists_block hone (by rw [hip', hip]; simp [hsize])
  -- the file is closed
  obtain ⟨f, hf⟩ : ∃ f : File, f = ⟨true, true, 1, some ip, 2⟩ := ⟨_, rfl⟩
  have hinum : f.inum = 1 := by rw [hf]
  obtain ⟨v', hfreed, hok, herr⟩ := fileclose_unlinked (f := f) hsb F Q₁ (by rwa [hinum])
    (by rw [hinum, hip', hf]) (by rw [hinum, hip', hip])
  rw [← hsrc]
  cases hclose : fileclose f m₁ with
  | error e => exact absurd hp₁ (herr e hclose).1
  | ok r' =>
    rw [hinum] at hfreed
    refine ⟨m, r, ip, m₁, _, r', v', b, hm, hr, hm₁, Q₁, hip', by rw [hip]; exact hsize, hused,
      by rw [← hf, hclose], hok r' hclose, by rw [hfreed.inode], ?_⟩
    rw [hfreed.free]
    exact Finset.mem_union_right _ (List.mem_toFinset.2 hb)

end Fs

end Xv6Editor
