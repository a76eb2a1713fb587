import Xv6Editor.Fs.Content

/-!
# Files

Between transactions the inodes are on the disk.  `Sane sb v` is the invariant of the file system
then: no block belongs to two files, and every file has exactly the blocks that its size needs.
`content v ip` is what is in a file.

* `Written sb i v off src v'` : `src` was written to the file of `i` at `off`, and nothing else
  happened to the files.
* `writei_does` : `writei`, for as many bytes as `filewrite` hands over at once.
* `readi_does` : `readi`.
-/

namespace Xv6Editor

namespace Fs

/-- The bytes of a file. -/
def content (v : Blocks) (ip : Inode) : List UInt8 := (List.range ip.size).map (byteAt v ip)

/-- The file system on the disk. -/
structure Sane (sb : Superblock) (v : Blocks) : Prop where
  wf : Wf sb v (inodeAt v)
  exact : ∀ i, i < sb.ninodes → Exact v (inodeAt v i) (inodeAt v i).size
  size_le : ∀ i, i < sb.ninodes → (inodeAt v i).size ≤ 512 * 140

/-- `src` was written to the file of `i` at `off`. -/
structure Written (sb : Superblock) (i : ℕ) (v : Blocks) (off : ℕ) (src : List UInt8)
    (v' : Blocks) : Prop where
  sane : Sane sb v'
  content : content v' (inodeAt v' i) = poke (content v (inodeAt v i)) off src
  others : ∀ j, j < sb.ninodes → j ≠ i →
    inodeAt v' j = inodeAt v j ∧ Fs.content v' (inodeAt v' j) = Fs.content v (inodeAt v j)
  fields : inodeAt v' i = { inodeAt v i with
    size := max (inodeAt v i).size (off + src.length), addrs := (inodeAt v' i).addrs }
  count : (freeBlocks sb v').card + blocksFor (max (inodeAt v i).size (off + src.length)) =
    (freeBlocks sb v).card + blocksFor (inodeAt v i).size

variable {sb : Superblock} {v v' v'' : Blocks} {T : ℕ → Inode} {ip ip' : Inode}
  {i j n off size : ℕ} {src src' : List UInt8} {S : Finset ℕ}

/-! ### Contents -/

theorem length_content (v : Blocks) (ip : Inode) : (content v ip).length = ip.size := by
  rw [content, List.length_map, List.length_range]

theorem getElem?_content (v : Blocks) (ip : Inode) (x : ℕ) :
    (content v ip)[x]? = if x < ip.size then some (byteAt v ip x) else none := by
  rw [content, List.getElem?_map]
  split_ifs with h
  · rw [List.getElem?_range h, Option.map_some]
  · rw [List.getElem?_eq_none (by simpa using h), Option.map_none]

theorem SameFile.content_eq (h : SameFile v v' ip) (hE : Exact v ip ip.size)
    (hsize : ip.size ≤ 512 * 140) : content v' ip = content v ip := by
  refine List.map_congr_left fun x hx => ?_
  have hptr : ptr v ip (x / 512) ≠ 0 := by
    rw [List.mem_range] at hx
    refine (hE _).2 ?_
    unfold needs
    omega
  rw [byteAt, byteAt, h.ptr_eq, h _ hptr]

theorem Wrote.content_eq (h : Wrote sb T i v (T i).size off src v' ip')
    (hoff : off ≤ (T i).size) :
    content v' { ip' with size := max (T i).size (off + src.length) } =
      poke (content v (T i)) off src := by
  refine List.ext_getElem? fun x => ?_
  rw [getElem?_content, getElem?_poke (by rwa [length_content]), getElem?_content]
  by_cases hx : x < max (T i).size (off + src.length)
  · have hbyte : byteAt v' { ip' with size := max (T i).size (off + src.length) } x =
        byteAt v' ip' x := rfl
    rw [if_pos hx, hbyte, h.bytes x hx]
    by_cases hin : off ≤ x ∧ x < off + src.length
    · rw [if_pos hin, if_pos hin, List.getD_eq_getElem _ _ (by omega),
        List.getElem?_eq_getElem (by omega)]
    · rw [if_neg hin, if_neg hin, if_pos (by omega)]
  · rw [if_neg hx, if_neg (by omega), if_neg (by omega)]

/-! ### Inodes on the disk -/

theorem iblock_lt (hi : i < sb.ninodes) : iblock i < sb.bitmap := by
  have := Nat.div_le_div_right (c := IPB) hi.le
  exact Nat.add_lt_add_of_le_of_lt this (by decide)

theorem iblock_lt_start (hsb : sb.Ok) (hi : i < sb.ninodes) : iblock i < sb.start :=
  ((iblock_lt hi).trans hsb.bitmap_lt).trans_le hsb.data_le

theorem iblock_ne_one (i : ℕ) : iblock i ≠ 1 :=
  ((by decide : 1 < 2).trans_le (Nat.le_add_left 2 _)).ne'

theorem inodeAt_update (hs : ip.Small) (j : ℕ) :
    inodeAt (Function.update v (iblock i) (putInode (v (iblock i)) i ip)) j =
      if j = i then ip else inodeAt v j := by
  rw [inodeAt, inodeAt, Function.update_apply]
  by_cases hb : iblock j = iblock i
  · rw [if_pos hb, getInode_putInode _ hs]
    have hij : j % IPB = i % IPB ↔ j = i := by
      simp only [iblock, IPB] at hb ⊢
      omega
    rw [hb]
    exact if_congr hij rfl rfl
  · rw [if_neg hb, if_neg]
    rintro rfl
    exact hb rfl

theorem Frame.inodeAt_eq (F : Frame sb T i v v') (hsb : sb.Ok) (hj : j < sb.ninodes) :
    inodeAt v' j = inodeAt v j := by
  have hlt := iblock_lt hj
  have hne : iblock j ≠ 0 := Nat.succ_ne_zero _
  rw [inodeAt, inodeAt, F.same _ hne (hlt.trans hsb.bitmap_lt) hlt.ne]

/-- The blocks after `iupdate`. -/
def store (v : Blocks) (i : ℕ) (ip : Inode) : Blocks :=
  Function.update v (iblock i) (putInode (v (iblock i)) i ip)

section

variable (hsb : sb.Ok) (hi : i < sb.ninodes)
include hsb hi

theorem used_store (ip : Inode) (b : ℕ) (hb : b < sb.size) :
    used sb (store v i ip) b = used sb v b := by
  rw [hsb.used_eq hb, hsb.used_eq hb, store, Function.update_of_ne (iblock_lt hi).ne']

theorem freeBlocks_store (ip : Inode) : freeBlocks sb (store v i ip) = freeBlocks sb v := by
  refine Finset.filter_congr fun b hb => ?_
  rw [used_store hsb hi ip b (hsb.lt_size (Finset.mem_Ico.1 hb).2)]

/-- No file has a block among those of the inodes. -/
theorem Wf.sameFile_store (W : Wf sb v T) (ip : Inode) (hj : j < sb.ninodes) :
    SameFile v (store v i ip) (T j) := by
  intro k hk
  have hdata := (W.ptr_mem hj hk).1
  exact Function.update_of_ne (((iblock_lt hi).trans hsb.bitmap_lt).trans_le hdata).ne' _ _

theorem Wf.store (W : Wf sb v T) (ip : Inode) : Wf sb (Fs.store v i ip) T := by
  refine W.congr ?_ (used_store hsb hi ip) hsb fun j hj => ?_
  · exact Function.update_of_ne (iblock_ne_one i).symm _ _
  · exact (W.sameFile_store hsb hi ip hj).ptr_eq

theorem iupdate_does (hS : iblock i ∈ S) (ip : Inode) :
    Does sb S v ∅ (Code.iupdate i ip) () (Fs.store v i ip) ∅ := by
  have hlt := iblock_lt_start hsb hi
  exact .update hlt (iblock_ne_one i) hS (Finset.notMem_empty _) (by simp) fun b => putInode b i ip

end

/-- One inode has changed, and the other files are as they were. -/
theorem Sane.of_update (F : Sane sb v) (hsb : sb.Ok)
    (W : Wf sb v' (Function.update (inodeAt v) i ip))
    (hT : ∀ j, j < sb.ninodes → inodeAt v' j = Function.update (inodeAt v) i ip j)
    (hsame : ∀ j, j < sb.ninodes → j ≠ i → SameFile v v' (inodeAt v j))
    (hE : Exact v' ip ip.size) (hsize : ip.size ≤ 512 * 140) : Sane sb v' := by
  refine ⟨W.congr rfl (fun _ _ => rfl) hsb fun j hj => ?_, fun j hj => ?_, fun j hj => ?_⟩
  · rw [hT j hj]
  · rw [hT j hj]
    by_cases hji : j = i
    · rwa [hji, Function.update_self]
    · rw [Function.update_of_ne hji, Exact, (hsame j hj hji).ptr_eq]
      exact F.exact j hj
  · rw [hT j hj]
    by_cases hji : j = i
    · rwa [hji, Function.update_self]
    · rw [Function.update_of_ne hji]
      exact F.size_le j hj

/-! ### Writing -/

theorem Wf.small (W : Wf sb v T) (hsb : sb.Ok) (hi : i < sb.ninodes) (hs : (inodeAt v' i).Small)
    (hf : T i = { inodeAt v' i with size := (T i).size, addrs := (T i).addrs })
    (hsize : (T i).size ≤ 512 * 140) : (T i).Small := by
  have hptr : ∀ k, ptr v (T i) k < 2 ^ 32 := by
    intro k
    by_cases hk : ptr v (T i) k = 0
    · rw [hk]
      decide
    · exact ((W.ptr_mem hi hk).2.1.trans_le hsb.start_le).trans (by decide)
  have haddrs : ∀ k, (T i).addrs k < 2 ^ 32 := by
    intro k
    by_cases hk : (k : ℕ) < 12
    · rw [← ptr_direct v (T i) k hk]
      exact hptr k
    · obtain rfl : k = 12 := Fin.ext (by omega)
      exact hptr 140
  rw [hf]
  exact ⟨hs.type, hs.major, hs.minor, hs.nlink, hsize.trans_lt (by decide), haddrs⟩

/-- The bytes are written, and the inode is on the disk. -/
theorem Wrote.written (F : Sane sb v) (hsb : sb.Ok) (hi : i < sb.ninodes)
    (R : Wrote sb (inodeAt v) i v (inodeAt v i).size off src v' ip')
    (hoff : off ≤ (inodeAt v i).size) (hend : off + src.length ≤ 512 * 140)
    (hip : ip = { ip' with size := max (inodeAt v i).size (off + src.length) })
    (hwf : Wf sb v'' (Function.update (inodeAt v) i ip))
    (hT : ∀ j, j < sb.ninodes → inodeAt v'' j = Function.update (inodeAt v) i ip j)
    (hsame : ∀ j, j < sb.ninodes → SameFile v' v'' (Function.update (inodeAt v) i ip j))
    (hfree : freeBlocks sb v'' = freeBlocks sb v') : Written sb i v off src v'' := by
  have hTi : inodeAt v'' i = ip := by rw [hT i hi, Function.update_self]
  have hTj : ∀ j, j < sb.ninodes → j ≠ i → inodeAt v'' j = inodeAt v j := by
    intro j hj hji
    rw [hT j hj, Function.update_of_ne hji]
  have hsize : ip.size ≤ 512 * 140 := by
    rw [hip]
    exact max_le (F.size_le i hi) hend
  have hi' : SameFile v' v'' ip := by
    have := hsame i hi
    rwa [Function.update_self] at this
  have hj' : ∀ j, j < sb.ninodes → j ≠ i → SameFile v v'' (inodeAt v j) := by
    intro j hj hji
    have := hsame j hj
    rw [Function.update_of_ne hji] at this
    exact (R.frame.others j hj hji).trans this
  have hptr : ptr v' ip = ptr v' ip' := by rw [hip]; rfl
  have hE : Exact v' ip ip.size := by
    rw [Exact, hptr, hip]
    exact R.exact
  have hE' : Exact v'' ip ip.size := by rwa [Exact, hi'.ptr_eq]
  refine ⟨F.of_update hsb hwf hT hj' hE' hsize, ?_, fun j hj hji => ?_, ?_, ?_⟩
  · rw [hTi, hi'.content_eq hE hsize, hip]
    exact R.content_eq hoff
  · rw [hTj j hj hji]
    exact ⟨rfl, (hj' j hj hji).content_eq (F.exact j hj) (F.size_le j hj)⟩
  · rw [hTi, hip, R.fields]
  · rw [hfree, R.count]

/-- The blocks that a write can log: the bitmap, the inode, the indirect block and four blocks from
`off` on. -/
def touched (sb : Superblock) (v : Blocks) (i : ℕ) (ip : Inode) (off : ℕ) : Finset ℕ :=
  insert sb.bitmap (insert (iblock i) (insert ip.indirect
    ((Finset.range 4).image fun d => ptr v ip (off / 512 + d))))

theorem card_touched_le (sb : Superblock) (v : Blocks) (i : ℕ) (ip : Inode) (off : ℕ) :
    (touched sb v i ip off).card ≤ 7 := by
  have himage : ((Finset.range 4).image fun d => ptr v ip (off / 512 + d)).card ≤ 4 :=
    Finset.card_image_le
  refine (Finset.card_insert_le _ _).trans (Nat.succ_le_succ ?_)
  refine (Finset.card_insert_le _ _).trans (Nat.succ_le_succ ?_)
  exact (Finset.card_insert_le _ _).trans (Nat.succ_le_succ himage)

theorem ptr_mem_touched {k : ℕ} (hk : off < 512 * (k + 1)) (hk' : 512 * k < off + src.length)
    (hlen : src.length ≤ 1536) : ptr v ip k ∈ touched sb v i ip off := by
  refine Finset.mem_insert_of_mem (Finset.mem_insert_of_mem (Finset.mem_insert_of_mem ?_))
  refine Finset.mem_image.2 ⟨k - off / 512, Finset.mem_range.2 (by omega), ?_⟩
  rw [Nat.add_sub_cancel' (by omega)]

theorem Wrote.inode_eq (R : Wrote sb T i v (T i).size off src v' ip')
    (hE : Exact v (T i) (T i).size) (hle : off + src.length ≤ (T i).size) : ip' = T i := by
  have hE' := R.exact
  rw [max_eq_left hle] at hE'
  have hptr : ∀ k, ptr v' ip' k = ptr v (T i) k := by
    intro k
    by_cases hk : ptr v (T i) k = 0
    · rw [hk]
      by_contra h
      exact (hE k).2 ((hE' k).1 h) hk
    · exact R.keep k hk
  have haddrs : ip'.addrs = (T i).addrs := by
    funext k
    by_cases hk : (k : ℕ) < 12
    · rw [← ptr_direct v' ip' k hk, ← ptr_direct v (T i) k hk, hptr]
    · obtain rfl : k = 12 := Fin.ext (by omega)
      exact hptr 140
  rw [R.fields, haddrs]

theorem Wrote.grown (F : Sane sb v) (hsb : sb.Ok) (hi : i < sb.ninodes)
    (R : Wrote sb (inodeAt v) i v (inodeAt v i).size off src v' ip')
    (hgrow : (inodeAt v i).size < off + src.length) (hoff : off ≤ (inodeAt v i).size)
    (hend : off + src.length ≤ 512 * 140) (hip : ip = { ip' with size := off + src.length }) :
    Written sb i v off src (store v' i ip) ∧ inodeAt (store v' i ip) i = ip := by
  have hmax : max (inodeAt v i).size (off + src.length) = off + src.length :=
    max_eq_right hgrow.le
  have hTi : Function.update (inodeAt v) i ip i = ip := Function.update_self ..
  have W : Wf sb v' (Function.update (inodeAt v) i ip) := by
    refine R.wf.congr rfl (fun _ _ => rfl) hsb fun j _ => ?_
    by_cases hji : j = i
    · subst hji
      rw [Function.update_self, Function.update_self, hip]
      rfl
    · rw [Function.update_of_ne hji, Function.update_of_ne hji]
  have hfields : ip = { inodeAt v i with size := ip.size, addrs := ip.addrs } := by
    rw [hip, R.fields]
  have hsmall : ip.Small := by
    have := W.small hsb hi (getInode_small _ _ : (inodeAt v i).Small)
    rw [hTi] at this
    exact this hfields (by rw [hip]; exact hend)
  have hinode : ∀ j, j < sb.ninodes →
      inodeAt (store v' i ip) j = Function.update (inodeAt v) i ip j := by
    intro j hj
    rw [store, inodeAt_update hsmall, R.frame.inodeAt_eq hsb hj, Function.update_apply]
  refine ⟨R.written F hsb hi hoff hend (by rw [hip, hmax]) (W.store hsb hi ip) hinode ?_ ?_, ?_⟩
  · exact fun j hj => W.sameFile_store hsb hi ip hj
  · exact freeBlocks_store hsb hi ip
  · rw [hinode i hi, hTi]

theorem writei_eq (hdev : ip.type ≠ T_DEV) (hoff : off ≤ ip.size)
    (hend : off + src.length ≤ 512 * 140) :
    Code.writei i ip src off = (do
      let ip ← Code.writeLoop ip off src
      if 0 < src.length ∧ ip.size < off + src.length then
        Code.iupdate i { ip with size := off + src.length }
        return (some src.length, { ip with size := off + src.length })
      else return (some src.length, ip)) := by
  have hmod : (off + src.length) % 2 ^ 32 = off + src.length :=
    Nat.mod_eq_of_lt (hend.trans_lt (by decide))
  rw [Code.writei, if_neg hdev, hmod, if_neg (by omega),
    if_neg (not_lt.2 (hend.trans_eq (by decide)))]

/-- `writei`, for as many bytes as `filewrite` hands over at once. -/
theorem writei_does (F : Sane sb v) (hsb : sb.Ok) (hi : i < sb.ninodes)
    (hdev : (inodeAt v i).type ≠ T_DEV) (hoff : off ≤ (inodeAt v i).size)
    (hlen : src.length ≤ 1536) (hend : off + src.length ≤ 512 * 140)
    (hroom : blocksFor (max (inodeAt v i).size (off + src.length)) ≤
      blocksFor (inodeAt v i).size + (freeBlocks sb v).card) :
    ∃ v', Written sb i v off src v' ∧ ∃ S : Finset ℕ, S.card ≤ 7 ∧
      Does sb S v ∅ (Code.writei i (inodeAt v i) src off)
        (some src.length, inodeAt v' i) v' ∅ := by
  obtain ⟨v₁, ip₁, R, hdoes⟩ :=
    writeLoop_does F.wf hsb hi (F.exact i hi) hoff (F.size_le i hi) hend hroom
  have hloop := hdoes (touched sb v₁ i ip₁ off) (Finset.mem_insert_self _ _)
    (fun _ => Finset.mem_insert_of_mem (Finset.mem_insert_of_mem (Finset.mem_insert_self _ _)))
    fun k hk hk' => ptr_mem_touched hk hk' hlen
  have hsize₁ : ip₁.size = (inodeAt v i).size := by rw [R.fields]
  rw [writei_eq hdev hoff hend]
  by_cases hgrow : (inodeAt v i).size < off + src.length
  · -- the file grows, and the inode is written back
    obtain ⟨ip₂, hip₂⟩ : ∃ ip₂ : Inode, ip₂ = { ip₁ with size := off + src.length } := ⟨_, rfl⟩
    obtain ⟨hwritten, hinode⟩ := R.grown F hsb hi hgrow hoff hend hip₂
    refine ⟨store v₁ i ip₂, hwritten, _, card_touched_le sb v₁ i ip₁ off, .bind hloop ?_⟩
    rw [if_pos ⟨by omega, by rwa [hsize₁]⟩, ← hip₂, hinode]
    exact .bind (iupdate_does hsb hi (Finset.mem_insert_of_mem (Finset.mem_insert_self _ _)) ip₂)
      (.pure _)
  · -- it does not, and its blocks are those it had
    have hle := not_lt.1 hgrow
    have hip : ip₁ = inodeAt v i := R.inode_eq (F.exact i hi) hle
    have hframe : ∀ j, j < sb.ninodes → inodeAt v₁ j = inodeAt v j :=
      fun j hj => R.frame.inodeAt_eq hsb hj
    have hT : Function.update (inodeAt v) i ip₁ = inodeAt v := by
      rw [hip, Function.update_eq_self]
    refine ⟨v₁, R.written F hsb hi hoff hend ?_ R.wf (fun j hj => ?_)
      (fun j _ => .refl v₁ _) rfl, _, card_touched_le sb v₁ i ip₁ off, .bind hloop ?_⟩
    · rw [max_eq_left hle, ← hsize₁]
    · rw [hT, hframe j hj]
    · rw [if_neg (by rw [hsize₁]; omega), hframe i hi, hip]
      exact .pure _

/-! ### Reading -/

/-- `readi` gives the bytes from `off` on, as many as there are. -/
theorem readi_does (F : Sane sb v) (hi : i < sb.ninodes) (hdev : (inodeAt v i).type ≠ T_DEV)
    (hoff : off ≤ (inodeAt v i).size) (hn : off + n < 2 ^ 32) (console : Option (List UInt8)) :
    Does sb S v ∅ (Code.readi console (inodeAt v i) off n)
      (some (slice (content v (inodeAt v i)) off n), inodeAt v i) v ∅ := by
  have hmod : (off + n) % 2 ^ 32 = off + n := Nat.mod_eq_of_lt hn
  rw [Code.readi, if_neg hdev, hmod, if_neg (by omega)]
  obtain ⟨k, hk⟩ : ∃ k, k = if (inodeAt v i).size < off + n then (inodeAt v i).size - off else n :=
    ⟨_, rfl⟩
  have hkn : k = min n ((inodeAt v i).size - off) := by
    rw [hk]
    split_ifs <;> omega
  rw [← hk]
  have hslice : slice (content v (inodeAt v i)) off n =
      (List.range k).map fun x => byteAt v (inodeAt v i) (off + x) := by
    refine List.ext_getElem? fun x => ?_
    rw [getElem?_slice, getElem?_content, List.getElem?_map]
    by_cases hx : x < k
    · rw [if_pos (by omega), if_pos (by omega), List.getElem?_range hx, Option.map_some]
    · rw [List.getElem?_eq_none (by simpa using hx), Option.map_none]
      split_ifs
      · omega
      · rfl
      · rfl
  rw [hslice]
  exact .bind (readLoop_does F.wf hi (F.exact i hi) (by omega) (F.size_le i hi)) (.pure _)

end Fs

end Xv6Editor
