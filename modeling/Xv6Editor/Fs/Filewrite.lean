import Xv6Editor.Fs.Crash
import Xv6Editor.Fs.Files

/-!
# Open files

`filewrite` and `fileread` of `file.c`, for a file on the disk.  A write is cut into pieces, each of
them a transaction of its own, since the log has no room for more.  A read is no transaction.

* `filewrite_spec` : the bytes come to the file, and nothing else happens to the files.  If the
  power fails, the first of the pieces have come to the file, and none of the others.
* `fileread_spec` : the bytes at the offset of the file.
* `fileread_recovered` : they are what recovery has found.
-/

namespace Xv6Editor

namespace Fs

/-- `struct file` for a file on the disk. -/
structure File where
  readable : Bool
  writable : Bool
  /-- The number of the inode. -/
  inum : ℕ
  /-- The copy of the inode in memory, if it is valid. -/
  ip : Option Inode
  off : ℕ

/-- `max` in `filewrite`: the bytes that are written at once. -/
def maxChunk : ℕ := (LOGSIZE - 1 - 1 - 2) / 2 * 512

namespace Code

/-- The transaction of `filewrite`. -/
def writeChunk (f : File) (src : List UInt8) : Code (Option ℕ × Inode) := do
  let ip ← ilock f.inum f.ip
  writei f.inum ip src f.off

/-- `fileread` between `ilock` and `iunlock`. -/
def readChunk (console : Option (List UInt8)) (f : File) (n : ℕ) :
    Code (Option (List UInt8) × Inode) := do
  let ip ← ilock f.inum f.ip
  readi console ip f.off n

end Code

/-- The loop of `filewrite`, and whether it came to the end of `src`. -/
def filewriteLoop (f : File) (src : List UInt8) (m : Machine) :
    Except Stop (Bool × File × Machine) :=
  if src = [] then .ok (true, f, m)
  else do
    let ((r, ip), m) ← transaction (Code.writeChunk f (src.take (min src.length maxChunk))) m
    match r with
    | none => .ok (false, { f with ip := some ip }, m)
    | some r =>
      if r ≠ min src.length maxChunk then .error (.panic .shortWrite)
      else (filewriteLoop { f with ip := some ip, off := (f.off + r) % 2 ^ 32 }
        (src.drop (min src.length maxChunk)) m)
termination_by src.length
decreasing_by
  rw [List.length_drop]
  have := List.length_pos_of_ne_nil ‹_›
  have hmax : maxChunk = 1536 := rfl
  omega

/-- `filewrite(f, src, n)`: the number of bytes, or nothing for `-1`. -/
def filewrite (f : File) (src : List UInt8) (m : Machine) :
    Except Stop (Option ℕ × File × Machine) :=
  if f.writable then do
    let (all, f, m) ← filewriteLoop f src m
    .ok (if all then some src.length else none, f, m)
  else .ok (none, f, m)

/-- `fileread(f, dst, n)`: the bytes, or nothing for `-1`. -/
def fileread (console : Option (List UInt8)) (f : File) (n : ℕ) (m : Machine) :
    Except Stop (Option (List UInt8) × File × Machine) :=
  if f.readable then do
    let ((r, ip), m) ← (Code.readChunk console f n).run kernel m
    .ok (r, { f with ip := some ip, off := (f.off + (r.getD []).length) % 2 ^ 32 }, m)
  else .ok (none, f, m)

/-- The file is open: its inode is that of a file and not of a device, its copy in memory is that of
the disk, and the offset is in the file. -/
structure File.At (sb : Superblock) (v : Blocks) (f : File) : Prop where
  inum_lt : f.inum < sb.ninodes
  copy : ∀ ip, f.ip = some ip → ip = inodeAt v f.inum
  type : (inodeAt v f.inum).type ≠ 0
  file : (inodeAt v f.inum).type ≠ T_DEV
  off_le : f.off ≤ (inodeAt v f.inum).size

variable {on : Prop} {sb : Superblock} {v v' v'' : Blocks} {f f' : File} {m m' : Machine}
  {i n off : ℕ} {src src' : List UInt8} {S : Finset ℕ}

/-! ### Writes one after the other -/

namespace Written

theorem refl (F : Sane sb v) (hoff : off ≤ (inodeAt v i).size) : Written sb i v off [] v := by
  have hmax : max (inodeAt v i).size (off + ([] : List UInt8).length) = (inodeAt v i).size :=
    max_eq_left hoff
  exact ⟨F, (poke_nil _ _).symm, fun j _ _ => ⟨rfl, rfl⟩, by rw [hmax], by rw [hmax]⟩

theorem size_eq (h : Written sb i v off src v') :
    (inodeAt v' i).size = max (inodeAt v i).size (off + src.length) := by
  rw [h.fields]

theorem append (h : Written sb i v off src v') (h' : Written sb i v' (off + src.length) src' v'')
    (hoff : off ≤ (inodeAt v i).size) : Written sb i v off (src ++ src') v'' := by
  have hmax : max (inodeAt v' i).size (off + src.length + src'.length) =
      max (inodeAt v i).size (off + (src ++ src').length) := by
    rw [h.size_eq, List.length_append]
    omega
  refine ⟨h'.sane, ?_, fun j hj hji => ?_, ?_, ?_⟩
  · rw [h'.content, h.content, poke_poke (by rwa [length_content])]
  · obtain ⟨hi₁, hc₁⟩ := h.others j hj hji
    obtain ⟨hi₂, hc₂⟩ := h'.others j hj hji
    exact ⟨hi₂.trans hi₁, hc₂.trans hc₁⟩
  · rw [h'.fields, hmax, h.fields]
  · have hcount := h.count
    have hcount' := h'.count
    rw [hmax, h.size_eq] at hcount'
    omega

end Written

/-! ### Locking -/

theorem File.At.ilock_does (hf : f.At sb v) (hsb : sb.Ok) :
    Does sb S v ∅ (Code.ilock f.inum f.ip) (inodeAt v f.inum) v ∅ := by
  cases hip : f.ip with
  | some ip =>
    rw [hf.copy ip hip]
    exact .pure _
  | none =>
    have hlt := iblock_lt_start hsb hf.inum_lt
    have htype : (getInode (v (iblock f.inum)) f.inum).type ≠ 0 := hf.type
    refine .bind (.bread hlt (Finset.notMem_empty _) (by simp)) (.bind (.brelse
      (Finset.notMem_empty _)) ?_)
    rw [if_neg htype]
    exact .pure _

theorem File.At.advance (hf : f.At sb v) (h : Written sb f.inum v f.off src v') :
    File.At sb v' { f with ip := some (inodeAt v' f.inum), off := f.off + src.length } := by
  have htype : (inodeAt v' f.inum).type = (inodeAt v f.inum).type := by rw [h.fields]
  refine ⟨hf.inum_lt, fun ip hip => (Option.some.inj hip).symm, ?_, ?_, ?_⟩
  · exact htype.trans_ne hf.type
  · exact htype.trans_ne hf.file
  · exact h.size_eq ▸ le_max_right _ _

/-! ### Writing -/

/-- The pieces that have come to the file. -/
theorem take_chunks (src : List UInt8) (k : ℕ) :
    src.take (min src.length maxChunk) ++
      (src.drop (min src.length maxChunk)).take (maxChunk * k) = src.take (maxChunk * (k + 1)) := by
  rcases le_total src.length maxChunk with hle | hle
  · rw [min_eq_left hle, List.take_length, List.drop_length, List.take_nil, List.append_nil]
    refine (List.take_of_length_le (hle.trans ?_)).symm
    exact Nat.le_mul_of_pos_right _ (Nat.succ_pos k)
  · rw [min_eq_right hle, Nat.mul_succ, Nat.add_comm, List.take_add]

theorem File.At.writeChunk_spec (hf : f.At sb v) (hsb : sb.Ok) (F : Sane sb v) (Q : Quiet sb v m)
    (hp : on → m.power = none) (hlen : src.length ≤ 1536) (hend : f.off + src.length ≤ 512 * 140)
    (hroom : blocksFor (max (inodeAt v f.inum).size (f.off + src.length)) ≤
      blocksFor (inodeAt v f.inum).size + (freeBlocks sb v).card) :
    ∃ v', Written sb f.inum v f.off src v' ∧
      EnsuresOr
        (fun r => r.1 = (some src.length, inodeAt v' f.inum) ∧ Quiet sb v' r.2 ∧
          (on → r.2.power = none))
        (Cut on fun d => Durable sb v d ∨ Durable sb v' d)
        (transaction (Code.writeChunk f src) m) := by
  obtain ⟨v', W, S, hS, hdoes⟩ := writei_does F hsb hf.inum_lt hf.file hf.off_le hlen hend hroom
  have hchunk : Does sb S v ∅ (Code.writeChunk f src) (some src.length, inodeAt v' f.inum) v' ∅ :=
    .bind (hf.ilock_does hsb) hdoes
  have hspace : S.card + 1 < sb.nlog := by
    have := hsb.nlog
    omega
  exact ⟨v', W, hchunk.transaction hS hspace hsb.one_lt Q hp⟩

theorem filewriteLoop_spec (hsb : sb.Ok) (F : Sane sb v) (Q : Quiet sb v m) (hf : f.At sb v)
    (hp : on → m.power = none) (hend : f.off + src.length ≤ 512 * 140)
    (hroom : blocksFor (max (inodeAt v f.inum).size (f.off + src.length)) ≤
      blocksFor (inodeAt v f.inum).size + (freeBlocks sb v).card) :
    EnsuresOr
      (fun r => r.1 = true ∧ r.2.1.inum = f.inum ∧ ∃ v', Written sb f.inum v f.off src v' ∧
        r.2.1.At sb v' ∧ r.2.1.off = f.off + src.length ∧ Quiet sb v' r.2.2 ∧
        (on → r.2.2.power = none))
      (Cut on fun d => ∃ k v', Written sb f.inum v f.off (src.take (maxChunk * k)) v' ∧
        Durable sb v' d)
      (filewriteLoop f src m) := by
  obtain ⟨n, hn⟩ : ∃ n, n = src.length := ⟨_, rfl⟩
  induction n using Nat.strong_induction_on generalizing f v src m with
  | _ n ih =>
    rw [filewriteLoop]
    by_cases hsrc : src = []
    · subst hsrc
      rw [if_pos rfl]
      exact .ok ⟨rfl, rfl, v, .refl F hf.off_le, hf, rfl, Q, hp⟩
    rw [if_neg hsrc]
    have hpos := List.length_pos_of_ne_nil hsrc
    have hmax : maxChunk = 1536 := rfl
    obtain ⟨n₁, hn₁⟩ : ∃ n₁, n₁ = min src.length maxChunk := ⟨_, rfl⟩
    have hlen : (src.take n₁).length = n₁ := List.length_take_of_le (by omega)
    have hdrop : (src.drop n₁).length = src.length - n₁ := List.length_drop
    have hchunks := take_chunks src
    rw [← hn₁] at hchunks ⊢
    -- this piece
    obtain ⟨v₁, W, hchunk⟩ := hf.writeChunk_spec hsb F Q hp (by rw [hlen]; omega)
      (by rw [hlen]; omega) ((blocksFor_mono (by rw [hlen]; omega)).trans hroom)
    refine .bind (hchunk.imp (fun _ => id) fun e he => he.imp fun d hd => ?_)
      fun ⟨⟨r, ip⟩, m₁⟩ ⟨hr, Q₁, hp₁⟩ => ?_
    · rcases hd with hd | hd
      · exact ⟨0, v, by simpa using Written.refl F hf.off_le, hd⟩
      · refine ⟨1, v₁, ?_, hd⟩
        have := hchunks 0
        rw [Nat.mul_zero, List.take_zero, List.append_nil] at this
        rwa [← this]
    · -- the others
      obtain ⟨rfl, rfl⟩ := Prod.mk.inj hr
      have hmod : (f.off + n₁) % 2 ^ 32 = f.off + n₁ := by omega
      have hcount := W.count
      have hf₁ := hf.advance W
      have hsize := W.size_eq
      rw [hlen] at hcount hf₁ hsize
      simp only [hlen, ne_eq, not_true_eq_false, if_false, hmod]
      have hrest := ih (src.length - n₁) (by omega) W.sane Q₁ hf₁ hp₁
        (by rw [hdrop]; change f.off + n₁ + _ ≤ _; omega) ?_ hdrop.symm
      · refine hrest.imp (fun x hx => ?_) fun e he => he.imp fun d hd => ?_
        · obtain ⟨h₁, h₂, v₂, W₂, hf₂, hoff₂, Q₂, hp₂⟩ := hx
          have hW : Written sb f.inum v₁ (f.off + (src.take n₁).length) (src.drop n₁) v₂ := by
            rwa [hlen]
          have := W.append hW hf.off_le
          rw [List.take_append_drop] at this
          refine ⟨h₁, h₂, v₂, this, hf₂, ?_, Q₂, hp₂⟩
          rw [hoff₂, hdrop]
          change f.off + n₁ + _ = _
          omega
        · obtain ⟨k, v₂, W₂, D⟩ := hd
          have hW : Written sb f.inum v₁ (f.off + (src.take n₁).length)
              ((src.drop n₁).take (maxChunk * k)) v₂ := by rwa [hlen]
          have := W.append hW hf.off_le
          rw [hchunks k] at this
          exact ⟨k + 1, v₂, this, D⟩
      · change blocksFor (max (inodeAt v₁ f.inum).size (f.off + n₁ + (src.drop n₁).length)) ≤
          blocksFor (inodeAt v₁ f.inum).size + (freeBlocks sb v₁).card
        have hend₁ : max (inodeAt v₁ f.inum).size (f.off + n₁ + (src.drop n₁).length) =
            max (inodeAt v f.inum).size (f.off + src.length) := by
          rw [hsize, hdrop]
          omega
        rw [hend₁, hsize]
        omega

/-! ### Reading -/

/-- Outside of transactions, with the buffers of `t.held`: the machine `m₀` when it began, but for
its cache. -/
structure Reading (sb : Superblock) (v : Blocks) (m₀ : Machine) (t : Txn) (m : Machine) :
    Prop where
  holds : Holds m m.disk t.held ∅
  same : m = { m₀ with cache := m.cache }
  home : ∀ s, s < sb.start → m.disk s = v s
  view : t.view = v
  logged : t.logged = []

theorem Reading.follows {m₀ : Machine} (c : Cmd) (t : Txn) (m : Machine) (hc : Within sb ∅ c)
    (R : Reading sb v m₀ t m) :
    Prog.Follows (Reading sb v m₀) SameStop (fun _ => False) (Txn.exec sb.nlog c t)
      (kernel c m) := by
  have hpin : t.pinned = t.held ∪ ∅ := by rw [Txn.pinned, R.logged]; rfl
  cases c with
  | bread s =>
    rw [Txn.exec]
    split_ifs with h₁ h₂
    · rw [kernel, R.holds.bread_held h₁]
      exact .error (.inl (.inr rfl))
    · rw [hpin] at h₂
      rw [kernel, R.holds.bread_full h₂]
      exact .error (.inl (.inr rfl))
    · rw [hpin] at h₂
      obtain ⟨c, hread, H⟩ := R.holds.bread h₁ (not_lt.1 h₂)
      rw [kernel, hread]
      have hval : m.disk s = t.view s := by rw [R.view, R.home s hc]
      exact .ok ⟨hval, H, by rw [R.same], R.home, R.view, R.logged⟩
  | logWrite s data => exact absurd hc.2 (Finset.notMem_empty s)
  | brelse s =>
    rw [Txn.exec]
    split_ifs with h₁
    · obtain ⟨c, hrel, H⟩ := R.holds.brelse h₁
      rw [kernel, hrel]
      exact .ok ⟨rfl, H, by rw [R.same], R.home, R.view, R.logged⟩
    · rw [kernel]
      rcases R.holds.brelse_not_held h₁ with h | h
      · rw [h]
        exact .error (.inl (.inl rfl))
      · rw [h]
        exact .error (.inl (.inl rfl))
  | panic p => exact .error (.inl (.inr rfl))

/-- Code that does not write runs without a transaction as well, and then nothing but the cache
changes. -/
theorem Does.read {α : Type} {p : Code α} {x : α} (h : Does sb ∅ v ∅ p x v ∅) (hsb : sb.Ok)
    (Q : Quiet sb v m) :
    ∃ m', p.run kernel m = .ok (x, m') ∧ Quiet sb v m' ∧ m' = { m with cache := m'.cache } := by
  have hspace : (∅ : Finset ℕ).card + 1 < sb.nlog := (by decide : 0 + 1 < 8).trans hsb.nlog
  obtain ⟨t, hrun, ht⟩ := h _ (.start (by decide) hspace v)
  have hfollows := Prog.run_follows Reading.follows p
    (⟨Q.holds, rfl, Q.home, rfl, rfl⟩ : Reading sb v m (.start v) m) hrun.2
  rw [hrun.1] at hfollows
  obtain ⟨hok, herr⟩ := hfollows
  cases hr : p.run kernel m with
  | error e => exact (herr e hr).elim
  | ok y =>
    obtain ⟨a, m'⟩ := y
    obtain ⟨rfl, R⟩ : a = x ∧ Reading sb v m t m' := hok _ hr
    have hlog : m'.log = m.log := by rw [R.same]
    have hdisk : m'.disk = m.disk := by rw [R.same]
    refine ⟨m', rfl, ⟨ht.held ▸ R.holds, hlog.trans Q.log, ?_, ?_, R.home⟩, R.same⟩
    · rw [hdisk]
      exact Q.head
    · rw [hdisk]
      exact Q.super

/-- `fileread` gives the bytes at the offset, as many as there are. -/
theorem fileread_spec (hsb : sb.Ok) (F : Sane sb v) (Q : Quiet sb v m) (hf : f.At sb v)
    (hr : f.readable = true) (hn : f.off + n < 2 ^ 32) (console : Option (List UInt8)) :
    ∃ m', fileread console f n m =
        .ok (some (slice (content v (inodeAt v f.inum)) f.off n),
          { f with
            ip := some (inodeAt v f.inum)
            off := f.off + (slice (content v (inodeAt v f.inum)) f.off n).length }, m') ∧
      Quiet sb v m' ∧ m' = { m with cache := m'.cache } := by
  have hdoes : Does sb ∅ v ∅ (Code.readChunk console f n) _ v ∅ :=
    .bind (hf.ilock_does hsb) (readi_does F hf.inum_lt hf.file hf.off_le hn console)
  obtain ⟨m', hrun, Q', hm'⟩ := hdoes.read hsb Q
  have hlen : (slice (content v (inodeAt v f.inum)) f.off n).length ≤ n := by
    rw [slice, List.length_take]
    exact min_le_left _ _
  have hmod : (f.off + (slice (content v (inodeAt v f.inum)) f.off n).length) % 2 ^ 32 =
      f.off + (slice (content v (inodeAt v f.inum)) f.off n).length := by
    omega
  refine ⟨m', ?_, Q', hm'⟩
  rw [fileread, if_pos hr, hrun]
  change Except.ok _ = _
  rw [Option.getD_some, hmod]

/-! ### A file system with an empty file -/

/-- `balloc(used)` of `mkfs`: the bitmap in which the first blocks are in use. -/
def markFirst : ℕ → Sector
  | 0 => Block.zero 512
  | used + 1 => (markFirst used).setBit used

/-- An empty file. -/
def emptyFile : Inode := { Inode.zero with type := 2, nlink := 1 }

/-- A disk on which the inode 1 is an empty file. -/
def smallDisk (sb : Superblock) : Blocks :=
  store (Function.update (blankDisk sb) sb.bitmap (markFirst sb.data)) 1 emptyFile

theorem bit_markFirst {used : ℕ} (h : used ≤ 8 * 512) (b : ℕ) :
    (markFirst used).bit b = decide (b < used) := by
  induction used with
  | zero => rw [markFirst, Block.bit_zero, decide_eq_false (Nat.not_lt_zero b)]
  | succ used ih =>
    rw [markFirst, Block.bit_setBit _ h, ih (Nat.le_of_succ_le h), Bool.eq_iff_iff]
    simp
    omega

theorem ptr_of_addrs {ip : Inode} (h : ∀ k, ip.addrs k = 0) (v : Blocks) (k : ℕ) :
    ptr v ip k = 0 := by
  have hind : ip.indirect = 0 := h 12
  rw [ptr, hind, if_pos rfl]
  split_ifs
  · exact h _
  all_goals rfl

theorem of_own_update_ne {T : ℕ → Inode} {ip : Inode} {x : ℕ × ℕ} (h : ∀ k, ip.addrs k = 0)
    (hx : own sb v (Function.update T i ip) x ≠ 0) : x.1 < sb.ninodes ∧ x.1 ≠ i := by
  constructor
  · by_contra hlt
    exact hx (if_neg hlt)
  · rintro rfl
    refine hx ?_
    rw [own, Function.update_self, ptr_of_addrs h, ite_self]

theorem Exact.of_addrs {ip : Inode} (h : ∀ k, ip.addrs k = 0) (hsize : ip.size = 0)
    (v : Blocks) : Exact v ip ip.size := by
  intro k
  rw [ptr_of_addrs h, hsize]
  refine iff_of_false (not_not.2 rfl) ?_
  unfold needs
  omega

theorem getInode_zero (i : ℕ) : getInode (Block.zero 512) i = Inode.zero := by
  have hnum : ∀ w off, numAt w (Block.zero 512).bytes off = 0 := by
    intro w off
    rw [numAt, slice, Block.zero, List.drop_replicate, List.take_replicate, ofLE_zeros]
  simp only [getInode, hnum, Inode.zero]

theorem smallDisk_of_ne {s : ℕ} (h1 : s ≠ 1) (hi : s ≠ iblock 1) (hb : s ≠ sb.bitmap) :
    smallDisk sb s = Block.zero 512 := by
  rw [smallDisk, store, Function.update_of_ne hi, Function.update_of_ne hb, blankDisk,
    Function.update_of_ne h1]

theorem inodeAt_smallDisk (hi : i < sb.ninodes) :
    inodeAt (smallDisk sb) i = if i = 1 then emptyFile else Inode.zero := by
  have hsmall : emptyFile.Small := by constructor <;> simp [emptyFile, Inode.zero]
  rw [smallDisk, store, inodeAt_update hsmall]
  split_ifs
  · rfl
  · rw [inodeAt, Function.update_of_ne (iblock_lt hi).ne, blankDisk,
      Function.update_of_ne (iblock_ne_one i), getInode_zero]

section

variable (hsb : sb.Ok) (hone : 1 < sb.ninodes)
include hsb

theorem smallDisk_one : smallDisk sb 1 = sb.toSector := by
  rw [smallDisk, store, Function.update_of_ne (iblock_ne_one 1).symm,
    Function.update_of_ne hsb.one_lt_bitmap.ne, blankDisk, Function.update_self]

include hone

theorem used_smallDisk {b : ℕ} (hb : b < sb.size) :
    used sb (smallDisk sb) b = decide (b < sb.data) := by
  rw [hsb.used_eq hb, smallDisk, store, Function.update_of_ne (iblock_lt hone).ne',
    Function.update_self, bit_markFirst]
  exact hsb.data_le.trans hsb.start_le

theorem sane_smallDisk (hs : sb.Small) : Sane sb (smallDisk sb) := by
  have haddrs : ∀ j, j < sb.ninodes → ∀ k, (inodeAt (smallDisk sb) j).addrs k = 0 := by
    intro j hj k
    rw [inodeAt_smallDisk hj]
    split_ifs <;> rfl
  have hsize : ∀ j, j < sb.ninodes → (inodeAt (smallDisk sb) j).size = 0 := by
    intro j hj
    rw [inodeAt_smallDisk hj]
    split_ifs <;> rfl
  have hown : own sb (smallDisk sb) (inodeAt (smallDisk sb)) = fun _ => 0 := by
    funext x
    rw [own]
    split_ifs with hx
    · exact ptr_of_addrs (haddrs x.1 hx) _ _
    · rfl
  refine ⟨⟨?_, fun b hb => ?_, hown ▸ .empty _⟩, fun j hj => ?_, fun j hj => ?_⟩
  · rw [smallDisk_one hsb, Superblock.ofSector_toSector hs]
  · rw [used_smallDisk hsb hone (hsb.lt_size (hb.trans_le hsb.data_le)), decide_eq_true hb]
  · exact .of_addrs (haddrs j hj) (hsize j hj) _
  · rw [hsize j hj]
    exact Nat.zero_le _

theorem durable_smallDisk (hs : sb.Small) : Durable sb (smallDisk sb) (smallDisk sb) := by
  have hdata := hsb.data_le
  have hbit := hsb.bitmap_lt
  have hblock := iblock_lt hone
  refine ⟨?_, [], ?_, Nat.succ_pos _, fun i s hi => ?_, fun s _ _ => rfl⟩
  · rw [smallDisk_one hsb, Superblock.ofSector_toSector hs]
  · rw [smallDisk_of_ne hsb.one_lt.ne' (by omega) (by omega), getHead, Block.word_zero]
    rfl
  · cases hi

theorem freeBlocks_smallDisk :
    freeBlocks sb (smallDisk sb) = Finset.Ico sb.data sb.start := by
  refine Finset.filter_true_of_mem fun b hb => ?_
  obtain ⟨h₁, h₂⟩ := Finset.mem_Ico.1 hb
  rw [used_smallDisk hsb hone (hsb.lt_size h₂), decide_eq_false (not_lt.2 h₁)]

end

theorem mkfsSuper_ok : mkfsSuper.Ok := ⟨by decide, by decide, by decide⟩

theorem one_lt_ninodes : 1 < mkfsSuper.ninodes := by decide

theorem File.at_smallDisk (readable writable : Bool) :
    File.At mkfsSuper (smallDisk mkfsSuper) ⟨readable, writable, 1, none, 0⟩ := by
  have hinode : inodeAt (smallDisk mkfsSuper) 1 = emptyFile := inodeAt_smallDisk one_lt_ninodes
  refine ⟨one_lt_ninodes, fun ip hip => ?_, ?_, ?_, Nat.zero_le _⟩
  · cases hip
  · rw [hinode]
    decide
  · rw [hinode]
    decide

theorem room_smallDisk (hlen : n ≤ 512) :
    blocksFor (max (inodeAt (smallDisk mkfsSuper) 1).size n) ≤
      blocksFor (inodeAt (smallDisk mkfsSuper) 1).size +
        (freeBlocks mkfsSuper (smallDisk mkfsSuper)).card := by
  have hinode : inodeAt (smallDisk mkfsSuper) 1 = emptyFile := inodeAt_smallDisk one_lt_ninodes
  have hblocks : blocksFor (max emptyFile.size n) ≤ 1 := blocksFor_mono (max_le (by decide) hlen)
  rw [hinode, freeBlocks_smallDisk mkfsSuper_ok one_lt_ninodes, Nat.card_Ico]
  exact hblocks.trans (by decide)

/-- The machine after a few bytes were written to the empty file. -/
theorem exists_written (src : List UInt8) (hlen : src.length ≤ 512) : ∃ m r v,
    initlog (boot (smallDisk mkfsSuper) none) = .ok m ∧
      filewrite ⟨true, true, 1, none, 0⟩ src m = .ok r ∧
        Written mkfsSuper 1 (smallDisk mkfsSuper) 0 src v ∧ Quiet mkfsSuper v r.2.2 ∧
          r.2.2.power = none := by
  have hsb := mkfsSuper_ok
  have hone := one_lt_ninodes
  obtain ⟨m, hm, Q, hp⟩ := (durable_smallDisk hsb hone (by decide)).exists_boot hsb.one_lt
  obtain ⟨f, hf⟩ : ∃ f : File, f = ⟨true, true, 1, none, 0⟩ := ⟨_, rfl⟩
  have hinum : f.inum = 1 := by rw [hf]
  have hoff : f.off = 0 := by rw [hf]
  have hend : f.off + src.length = src.length := by omega
  have hle : f.off + src.length ≤ 512 * 140 := by omega
  obtain ⟨hok, herr⟩ := filewriteLoop_spec hsb (sane_smallDisk hsb hone (by decide)) Q
    (hf ▸ File.at_smallDisk true true) (fun _ : True => hp) hle
    (by rw [hend, hinum]; exact room_smallDisk hlen)
  rw [← hf]
  cases hr : filewriteLoop f src m with
  | error e => exact absurd trivial (herr e hr).1
  | ok r =>
    obtain ⟨hall, -, v, W, -, -, Q', hp'⟩ := hok r hr
    rw [hinum, hoff] at W
    refine ⟨m, (some src.length, r.2), v, hm, ?_, W, Q', hp' trivial⟩
    rw [filewrite, if_pos (by rw [hf]), hr]
    change Except.ok (if r.1 then some src.length else none, r.2) = _
    rw [hall, if_pos rfl]

/-! ### Results -/

/-- `filewrite` to a file on the disk, if there are blocks enough: the bytes come to the file, and
nothing else happens to the files.  Only a power failure can keep it from that, and then the first
of the pieces have come to the file. -/
theorem filewrite_spec (hsb : sb.Ok) (F : Sane sb v) (Q : Quiet sb v m) (hf : f.At sb v)
    (hw : f.writable = true) (hend : f.off + src.length ≤ 512 * 140)
    (hroom : blocksFor (max (inodeAt v f.inum).size (f.off + src.length)) ≤
      blocksFor (inodeAt v f.inum).size + (freeBlocks sb v).card) :
    EnsuresOr
      (fun r => r.1 = some src.length ∧ r.2.1.inum = f.inum ∧ r.2.1.off = f.off + src.length ∧
        ∃ v', Written sb f.inum v f.off src v' ∧ r.2.1.At sb v' ∧ Quiet sb v' r.2.2)
      (Cut (m.power = none) fun d => ∃ k v',
        Written sb f.inum v f.off (src.take (maxChunk * k)) v' ∧ Durable sb v' d)
      (filewrite f src m) := by
  rw [filewrite, if_pos hw]
  refine .bind (filewriteLoop_spec hsb F Q hf id hend hroom) fun ⟨all, f', m'⟩ hr => ?_
  obtain ⟨rfl, hinum, v', W, hf', hoff, Q', -⟩ := hr
  exact .ok ⟨rfl, hinum, hoff, v', W, hf', Q'⟩

/-- Two bytes are written to the empty file. -/
theorem filewrite_spec_empty_file : ∃ m r,
    initlog (boot (smallDisk mkfsSuper) none) = .ok m ∧
      filewrite ⟨false, true, 1, none, 0⟩ [104, 105] m = .ok r ∧ r.1 = some 2 ∧
        ∃ v', content v' (inodeAt v' 1) = [104, 105] ∧ Quiet mkfsSuper v' r.2.2 := by
  have hsb := mkfsSuper_ok
  have hone := one_lt_ninodes
  have F := sane_smallDisk hsb hone (by decide)
  obtain ⟨m, hm, Q, hp⟩ := (durable_smallDisk hsb hone (by decide)).exists_boot hsb.one_lt
  have hinode : inodeAt (smallDisk mkfsSuper) 1 = emptyFile := inodeAt_smallDisk hone
  obtain ⟨f, hf⟩ : ∃ f : File, f = ⟨false, true, 1, none, 0⟩ := ⟨_, rfl⟩
  obtain ⟨src, hsrc⟩ : ∃ src : List UInt8, src = [104, 105] := ⟨_, rfl⟩
  have hend : f.off + src.length = 2 := by rw [hf, hsrc]; rfl
  have hinum : f.inum = 1 := by rw [hf]
  have hle : f.off + src.length ≤ 512 * 140 := by omega
  obtain ⟨hok, herr⟩ := filewrite_spec hsb F Q (hf ▸ File.at_smallDisk false true)
    (by rw [hf]) hle (by rw [hend, hinum]; exact room_smallDisk (by decide))
  rw [← hf, ← hsrc]
  cases hr : filewrite f src m with
  | error e => exact absurd hp (herr e hr).1
  | ok r =>
    obtain ⟨h₁, -, -, v', W, -, Q'⟩ := hok r hr
    have hcontent := W.content
    rw [hf, hinode, hsrc] at hcontent
    exact ⟨m, r, hm, hr, by rw [h₁, hsrc]; rfl, v', hsrc ▸ hcontent, Q'⟩

/-- After a power failure: once recovery has come to its end, `fileread` of a file that was not open
gives what recovery was to make of the disk. -/
theorem fileread_recovered {d : Blocks} {power : Option ℕ} (hsb : sb.Ok) (F : Sane sb v)
    (D : Durable sb v d) (hboot : initlog (boot d power) = .ok m) (hi : i < sb.ninodes)
    (htype : (inodeAt v i).type ≠ 0) (hfile : (inodeAt v i).type ≠ T_DEV) (hn : n < 2 ^ 32)
    (console : Option (List UInt8)) :
    ∃ f' m', fileread console ⟨true, false, i, none, 0⟩ n m =
        .ok (some ((content v (inodeAt v i)).take n), f', m') ∧
      Quiet sb v m' := by
  have Q := ((initlog_spec hsb.one_lt D power).1 m hboot).1
  have hf : File.At sb v ⟨true, false, i, none, 0⟩ := by
    refine ⟨hi, fun ip hip => ?_, htype, hfile, Nat.zero_le _⟩
    cases hip
  obtain ⟨m', hread, Q', -⟩ := fileread_spec hsb F Q hf rfl (by rwa [Nat.zero_add]) console
  exact ⟨_, m', hread, Q'⟩

/-- Two bytes are written, the power fails, and they are read after the next start. -/
theorem fileread_recovered_written : ∃ m r m₁ f' m',
    initlog (boot (smallDisk mkfsSuper) none) = .ok m ∧
      filewrite ⟨true, true, 1, none, 0⟩ [104, 105] m = .ok r ∧
        initlog (boot r.2.2.disk none) = .ok m₁ ∧
          fileread none ⟨true, false, 1, none, 0⟩ 512 m₁ = .ok (some [104, 105], f', m') := by
  obtain ⟨src, hsrc⟩ : ∃ src : List UInt8, src = [104, 105] := ⟨_, rfl⟩
  obtain ⟨m, r, v, hm, hr, W, Q, -⟩ := exists_written src (by rw [hsrc]; decide)
  obtain ⟨m₁, hm₁, -, -⟩ := Q.durable.exists_boot mkfsSuper_ok.one_lt
  have hinode : inodeAt (smallDisk mkfsSuper) 1 = emptyFile := inodeAt_smallDisk one_lt_ninodes
  have htype : (inodeAt v 1).type = 2 := by
    rw [W.fields, hinode]
    rfl
  have hcontent := W.content
  rw [hinode, hsrc] at hcontent
  obtain ⟨f', m', hread, -⟩ := fileread_recovered (n := 512) mkfsSuper_ok W.sane Q.durable hm₁
    one_lt_ninodes (by rw [htype]; decide) (by rw [htype]; decide) (by decide) none
  rw [hcontent] at hread
  rw [← hsrc]
  exact ⟨m, r, m₁, f', m', hm, hr, hm₁, hsrc ▸ hread⟩

end Fs

end Xv6Editor
