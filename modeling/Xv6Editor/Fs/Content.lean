import Mathlib.Data.List.GetD
import Xv6Editor.Fs.Bmap

/-!
# Reading and writing

The loops of `readi` and `writei`.  `byteAt v ip x` is the byte at the offset `x` of a file.

* `readLoop_does` : reading gives the bytes and changes nothing.
* `Wrote sb T i v size off src v' ip'` : the bytes `src` are at `off` now; the others are as before,
  and the file has got the blocks that it needs.
* `writeLoop_does` : the loop of `writei`.  It logs the bitmap, the indirect block and the blocks it
  writes to.
-/

namespace Xv6Editor

namespace Fs

/-- The byte at the offset `x` of a file. -/
def byteAt (v : Blocks) (ip : Inode) (x : ℕ) : UInt8 := (v (ptr v ip (x / 512))).byte (x % 512)

/-- The bytes of `src` were written to the file of `i` at `off`.  Its size was `size`. -/
structure Wrote (sb : Superblock) (T : ℕ → Inode) (i : ℕ) (v : Blocks) (size off : ℕ)
    (src : List UInt8) (v' : Blocks) (ip' : Inode) : Prop extends Grown sb T i v v' ip' where
  exact : Exact v' ip' (max size (off + src.length))
  count : (freeBlocks sb v').card + blocksFor (max size (off + src.length)) =
    (freeBlocks sb v).card + blocksFor size
  bytes : ∀ x, x < max size (off + src.length) → byteAt v' ip' x =
    if off ≤ x ∧ x < off + src.length then src.getD (x - off) 0 else byteAt v (T i) x

variable {sb : Superblock} {v v' v'' : Blocks} {T : ℕ → Inode} {ip ip' ip'' : Inode}
  {i k bn size off n : ℕ} {src src' : List UInt8} {S : Finset ℕ}

theorem blocksFor_mono {size size' : ℕ} (h : size ≤ size') : blocksFor size ≤ blocksFor size' := by
  unfold blocksFor
  split_ifs <;> omega

/-! ### Reading -/

theorem readLoop_does (W : Wf sb v T) (hi : i < sb.ninodes) (hE : Exact v (T i) size)
    (hend : off + n ≤ size) (hsize : size ≤ 512 * 140) :
    Does sb S v ∅ (Code.readLoop (T i) off n)
      ((List.range n).map fun x => byteAt v (T i) (off + x), T i) v ∅ := by
  induction n using Nat.strong_induction_on generalizing off with
  | _ n ih =>
    rw [Code.readLoop]
    by_cases hn : n = 0
    · rw [if_pos hn, hn]
      exact .pure _
    · rw [if_neg hn]
      have hneeds : needs size (off / 512) := by
        unfold needs
        omega
      have hptr := (hE _).2 hneeds
      have hstart := (W.ptr_mem hi hptr).2.1
      refine .bind (bmap_lookup W hi (by omega) hptr)
        (.bind (.bread hstart (Finset.notMem_empty _) (by simp)) (.bind (.brelse
          (Finset.notMem_empty _)) ?_))
      obtain ⟨m, hm⟩ : ∃ m, m = min n (512 - off % 512) := ⟨_, rfl⟩
      rw [← hm]
      refine .bind (ih (n - m) (by omega) (by omega)) ?_
      have hbytes : slice (v (ptr v (T i) (off / 512))).bytes (off % 512) m ++
          (List.range (n - m)).map (fun x => byteAt v (T i) (off + m + x)) =
            (List.range n).map fun x => byteAt v (T i) (off + x) := by
        have hsplit : List.range n = List.range m ++ (List.range (n - m)).map (m + ·) := by
          rw [← List.range_add, Nat.add_sub_cancel' (by omega)]
        rw [hsplit, List.map_append, List.map_map]
        congr 1
        · refine List.ext_getElem? fun x => ?_
          rw [getElem?_slice, List.getElem?_map]
          by_cases hx : x < m
          · have hdiv : (off + x) / 512 = off / 512 := by omega
            have hmod : (off + x) % 512 = off % 512 + x := by omega
            rw [if_pos hx, List.getElem?_range hx, Option.map_some, byteAt, hdiv, hmod, Block.byte,
              List.getD_eq_getElem?_getD, List.getElem?_eq_getElem, Option.getD_some]
            rw [Block.length_bytes]
            omega
          · rw [if_neg hx, List.getElem?_eq_none (by simpa using hx)]
            rfl
        · refine List.map_congr_left fun x _ => ?_
          rw [Function.comp_apply, Nat.add_assoc]
      rw [← hbytes]
      exact .pure _

/-! ### Writing -/

section

variable (W : Wf sb v T) (hsb : sb.Ok) (hi : i < sb.ninodes)
include W hi

/-- Writing to a block with content does not change where the blocks are. -/
theorem ptr_write (hk : k ≠ 140) (d : Sector) {j : ℕ} (hj : j < sb.ninodes) :
    ptr (Function.update v (ptr v (T i) k) d) (T j) = ptr v (T j) := by
  refine ptr_congr fun hind => Function.update_of_ne ?_ _ _
  rw [← ptr_indirect v (T j)] at hind ⊢
  exact (W.ptr_ne hj hi hind (.inr hk.symm))

variable (hp : ptr v (T i) k ≠ 0)
include hsb hp

theorem used_write (d : Sector) (b : ℕ) (hb : b < sb.size) :
    used sb (Function.update v (ptr v (T i) k) d) b = used sb v b := by
  rw [hsb.used_eq hb, hsb.used_eq hb, Function.update_of_ne (W.ptr_ne_bitmap hi hp).symm]

theorem grown_write (hk : k ≠ 140) (d : Sector) :
    Grown sb T i v (Function.update v (ptr v (T i) k) d) (T i) := by
  have hdata := (W.ptr_mem hi hp).1
  refine ⟨?_, ⟨fun j hj hji l hl => ?_, fun s _ hs _ => ?_⟩, fun l _ => ?_, rfl⟩
  · rw [Function.update_eq_self]
    refine W.congr ?_ (used_write W hsb hi hp d) hsb fun j hj => ptr_write W hi hk d hj
    exact Function.update_of_ne (hsb.ne_one hdata).symm _ _
  · exact Function.update_of_ne (W.ptr_ne hj hi hl (.inl hji)) _ _
  · exact Function.update_of_ne (hs.trans_le hdata).ne _ _
  · rw [ptr_write W hi hk d hi]

theorem freeBlocks_write (d : Sector) :
    freeBlocks sb (Function.update v (ptr v (T i) k) d) = freeBlocks sb v := by
  refine Finset.filter_congr fun b hb => ?_
  rw [used_write W hsb hi hp d b (hsb.lt_size (Finset.mem_Ico.1 hb).2)]

end

/-- One round of the loop: the block was found or added, and the bytes go into it. -/
theorem Mapped.wrote (hsb : sb.Ok) (hi : i < sb.ninodes)
    (M : Mapped sb T i v size (off / 512) v' ip') (hE : Exact v (T i) size) (hoff : off ≤ size)
    (hsize : size ≤ 512 * 140) (hsrc : src ≠ []) (hlen : off % 512 + src.length ≤ 512)
    (hend : off < 512 * 140) :
    Wrote sb T i v size off src
      (Function.update v' (ptr v' ip' (off / 512))
        ((v' (ptr v' ip' (off / 512))).put (off % 512) src)) ip' := by
  have hpos := List.length_pos_of_ne_nil hsrc
  have hT : Function.update T i ip' i = ip' := Function.update_self ..
  have hp : ptr v' ip' (off / 512) ≠ 0 := (M.exact _).2 (by unfold needs; omega)
  have hk : off / 512 ≠ 140 := by omega
  -- the write, as a step of the same kind
  have hp' : ptr v' (Function.update T i ip' i) (off / 512) ≠ 0 := by rwa [hT]
  have G := grown_write M.wf hsb hi hp' hk ((v' (ptr v' ip' (off / 512))).put (off % 512) src)
  have hptr := ptr_write M.wf hi hk ((v' (ptr v' ip' (off / 512))).put (off % 512) src) hi
  have hfree := freeBlocks_write M.wf hsb hi hp'
    ((v' (ptr v' ip' (off / 512))).put (off % 512) src)
  have hinj : ∀ l, ptr v' ip' l ≠ 0 → l ≠ off / 512 →
      ptr v' ip' l ≠ ptr v' ip' (off / 512) := by
    intro l hl hne
    have := M.wf.ptr_ne hi hi (k := l) (l := off / 512)
    rw [hT] at this
    exact this hl (.inr hne)
  rw [hT] at G hptr hfree
  have hsame : blocksFor (max size (512 * (off / 512) + 1)) =
      blocksFor (max size (off + src.length)) := by
    unfold blocksFor
    split_ifs <;> omega
  refine ⟨M.toGrown.trans G, fun l => ?_, ?_, fun x hx => ?_⟩
  · rw [hptr, M.exact l]
    unfold needs
    omega
  · rw [hfree, ← hsame, M.count]
  · -- the byte is in the block that was written, or it is not
    rw [byteAt, hptr]
    by_cases hxb : x / 512 = off / 512
    · rw [hxb, Function.update_self, Block.byte_put _ hlen]
      by_cases hin : off ≤ x ∧ x < off + src.length
      · rw [if_pos (by omega), if_pos hin]
        congr 1
        omega
      · rw [if_neg (by omega), if_neg hin, byteAt, hxb]
        have hold : ptr v (T i) (off / 512) ≠ 0 := (hE _).2 (by unfold needs; omega)
        rw [M.keep _ hold, M.content _ hk hold]
    · rw [if_neg (by omega), byteAt]
      have hold : ptr v (T i) (x / 512) ≠ 0 := (hE _).2 (by unfold needs; omega)
      have hkeep := M.keep _ hold
      rw [Function.update_of_ne (hinj _ (by rwa [hkeep]) hxb), hkeep,
        M.content _ (by omega) hold]

/-- Two writes one after the other. -/
theorem Wrote.append (h : Wrote sb T i v size off src v' ip')
    (h' : Wrote sb (Function.update T i ip') i v' (max size (off + src.length))
      (off + src.length) src' v'' ip'') :
    Wrote sb T i v size off (src ++ src') v'' ip'' := by
  have hlen : off + (src ++ src').length = off + src.length + src'.length := by
    rw [List.length_append, Nat.add_assoc]
  have hmax : max (max size (off + src.length)) (off + src.length + src'.length) =
      max size (off + (src ++ src').length) := by omega
  obtain ⟨G', hE', hcount', hbytes'⟩ := h'
  rw [hmax] at hE' hcount' hbytes'
  rw [Function.update_self] at hbytes'
  refine ⟨h.toGrown.trans G', hE', by rw [hcount', h.count], fun x hx => ?_⟩
  rw [hbytes' x hx, hlen]
  by_cases h₂ : off + src.length ≤ x ∧ x < off + src.length + src'.length
  · rw [if_pos h₂, if_pos (by omega), List.getD_append_right _ _ _ _ (by omega)]
    congr 1
    omega
  · rw [if_neg h₂, h.bytes x (by omega)]
    by_cases h₁ : off ≤ x ∧ x < off + src.length
    · rw [if_pos h₁, if_pos (by omega), List.getD_append _ _ _ _ (by omega)]
    · rw [if_neg h₁, if_neg (by omega)]

/-- The loop of `writei`. -/
theorem writeLoop_does (W : Wf sb v T) (hsb : sb.Ok) (hi : i < sb.ninodes)
    (hE : Exact v (T i) size) (hoff : off ≤ size) (hsize : size ≤ 512 * 140)
    (hend : off + src.length ≤ 512 * 140)
    (hroom : blocksFor (max size (off + src.length)) ≤
      blocksFor size + (freeBlocks sb v).card) :
    ∃ v' ip', Wrote sb T i v size off src v' ip' ∧
      ∀ S, sb.bitmap ∈ S → (ip'.indirect ≠ 0 → ip'.indirect ∈ S) →
        (∀ k, off < 512 * (k + 1) → 512 * k < off + src.length → ptr v' ip' k ∈ S) →
          Does sb S v ∅ (Code.writeLoop (T i) off src) ip' v' ∅ := by
  obtain ⟨n, hn⟩ : ∃ n, n = src.length := ⟨_, rfl⟩
  induction n using Nat.strong_induction_on generalizing T v size off src with
  | _ n ih =>
    by_cases hsrc : src = []
    · subst hsrc
      have hmax : max size (off + ([] : List UInt8).length) = size := max_eq_left hoff
      refine ⟨v, T i, ⟨.refl W, by rwa [hmax], by rw [hmax], fun x _ => ?_⟩, fun S _ _ _ => ?_⟩
      · rw [if_neg (by simp)]
      · rw [Code.writeLoop, if_pos rfl]
        exact .pure _
    · have hpos := List.length_pos_of_ne_nil hsrc
      obtain ⟨m, hm⟩ : ∃ m, m = min src.length (512 - off % 512) := ⟨_, rfl⟩
      have hlen : (src.take m).length = m := List.length_take_of_le (by omega)
      have hdrop : (src.drop m).length = src.length - m := List.length_drop
      have hrest : off + m + (src.length - m) = off + src.length := by omega
      -- this round
      obtain ⟨v₁, ip₁, M, hdoes₁⟩ := bmap_does W hsb hi (by omega : off / 512 < 140) hE (by omega)
        ((blocksFor_mono (by omega)).trans hroom)
      have hp₁ : ptr v₁ ip₁ (off / 512) ≠ 0 := (M.exact _).2 (by unfold needs; omega)
      have hne : src.take m ≠ [] := List.ne_nil_of_length_pos (by rw [hlen]; omega)
      have R := M.wrote hsb hi hE hoff hsize hne (by rw [hlen]; omega) (by omega)
      have hT : Function.update T i ip₁ i = ip₁ := Function.update_self ..
      have hptr₂ := ptr_write M.wf hi (by omega : off / 512 ≠ 140)
        ((v₁ (ptr v₁ ip₁ (off / 512))).put (off % 512) (src.take m)) hi
      rw [hT] at hptr₂
      generalize hv₂ : Function.update v₁ (ptr v₁ ip₁ (off / 512))
        ((v₁ (ptr v₁ ip₁ (off / 512))).put (off % 512) (src.take m)) = v₂ at R hptr₂
      have hE₂ := R.exact
      have hcount := R.count
      rw [hlen] at hE₂ hcount
      -- the other rounds
      obtain ⟨v', ip', R', hdoes'⟩ := ih (src.length - m) (by omega) R.wf (by rwa [hT])
        (le_max_right size (off + m)) (by omega) (by rw [hdrop, hrest]; exact hend)
        (by rw [hdrop, hrest, max_assoc, max_eq_right (by omega : off + m ≤ _)]; omega) hdrop.symm
      have hkeep := R'.keep
      rw [hT, hptr₂] at hkeep
      have R₂ : Wrote sb (Function.update T i ip₁) i v₂ (max size (off + (src.take m).length))
          (off + (src.take m).length) (src.drop m) v' ip' := by rwa [hlen]
      refine ⟨v', ip', ?_, fun S hbm hind hS => ?_⟩
      · have := R.append R₂
        rwa [List.take_append_drop] at this
      · rw [hT, hdrop, hrest] at hdoes'
        obtain ⟨hdata, hstart, -⟩ := M.wf.ptr_mem hi (by rwa [hT])
        rw [hT] at hdata hstart
        have haddr : ptr v₁ ip₁ (off / 512) ∈ S := by
          rw [← hkeep _ hp₁]
          exact hS _ (by omega) (by omega)
        have hind₁ : ip₁.indirect ≠ 0 → ip₁.indirect ∈ S := by
          intro h
          have heq : ip'.indirect = ip₁.indirect := hkeep 140 h
          rw [heq] at hind
          exact hind h
        rw [Code.writeLoop, if_neg hsrc, ← hm]
        refine .bind (hdoes₁ S hbm haddr hind₁) (.bind (.bread hstart (Finset.notMem_empty _)
          (by simp)) (.bind (.logWrite hstart (hsb.ne_one hdata) haddr
            (Finset.mem_insert_self _ _) _) (.bind (.brelse (Finset.notMem_empty _)) ?_)))
        rw [hv₂]
        exact hdoes' S hbm hind fun k hk => hS k (by omega)

end Fs

end Xv6Editor
