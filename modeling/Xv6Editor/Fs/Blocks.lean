import Xv6Editor.CMem.Bits
import Xv6Editor.Fs.Txn

/-!
# Blocks

The lowest layer of `fs.c`: blocks are allocated and freed by a bitmap on the disk.

`Does sb S v H p a v' H'` is how the code above the log is specified.  While it holds the buffers
of `H`, the code `p` turns the blocks `v` into `v'`, returns `a` and logs no sectors but those of
`S`; then it holds the buffers of `H'`.  There have to be enough buffers and enough room in the log
for all of `S`, so that the kernel does not panic.

* `balloc_does` : `balloc` takes the first block that is free.
* `bfree_does` : `bfree` gives a block back.
-/

namespace Xv6Editor

namespace Fs

/-- The number of inodes in a block. -/
def IPB : ℕ := 8

/-- The number of bits in a block. -/
def BPB : ℕ := 4096

/-- `IBLOCK(i)`: the block of the inode `i`. -/
def iblock (i : ℕ) : ℕ := i / IPB + 2

/-- `BBLOCK(b, ninodes)`: the block of the bitmap for the block `b`. -/
def bblock (b ninodes : ℕ) : ℕ := b / BPB + ninodes / IPB + 3

namespace Code

/-- `bread(dev, s)`. -/
def bread (s : ℕ) : Code Sector := .command (Cmd.bread s)

/-- `log_write(bp)` for the buffer of `s`, after `data` has been put into it. -/
def logWrite (s : ℕ) (data : Sector) : Code Unit := .command (Cmd.logWrite s data)

/-- `brelse(bp)` for the buffer of `s`. -/
def brelse (s : ℕ) : Code Unit := .command (Cmd.brelse s)

/-- `panic(…)`. -/
def panic {α : Type} (p : Panic) : Code α := .call (.panic p) Empty.elim

/-- `readsb(dev, &sb)`. -/
def readsb : Code Superblock := do
  let bp ← bread 1
  brelse 1
  return .ofSector bp

/-- `bzero(dev, bno)`. -/
def bzero (bno : ℕ) : Code Unit := do
  let _ ← bread bno
  logWrite bno (Block.zero 512)
  brelse bno

/-- The inner loop of `balloc`: the first bit that is not set in the bits for the blocks from `b`
on. -/
def freeBit (size b : ℕ) (bp : Sector) : Option ℕ :=
  (List.range (min BPB (size - b))).find? fun bi => !bp.bit bi

/-- The outer loop of `balloc`, for `k` more blocks of the bitmap from that of the block `b` on. -/
def ballocFrom (sb : Superblock) : ℕ → ℕ → Code ℕ
  | 0, _ => panic .outOfBlocks
  | k + 1, b => do
    let bp ← bread (bblock b sb.ninodes)
    match freeBit sb.size b bp with
    | some bi =>
      logWrite (bblock b sb.ninodes) (bp.setBit bi)
      brelse (bblock b sb.ninodes)
      bzero (b + bi)
      return b + bi
    | none =>
      brelse (bblock b sb.ninodes)
      ballocFrom sb k (b + BPB)

/-- `balloc(dev)`. -/
def balloc : Code ℕ := do
  let sb ← readsb
  ballocFrom sb ((sb.size + BPB - 1) / BPB) 0

/-- `bfree(dev, b)`. -/
def bfree (b : ℕ) : Code Unit := do
  let sb ← readsb
  let bp ← bread (bblock b sb.ninodes)
  if bp.bit (b % BPB) then
    logWrite (bblock b sb.ninodes) (bp.clearBit (b % BPB))
    brelse (bblock b sb.ninodes)
  else panic .freeingFree

end Code

/-! ### Specifications -/

/-- A transaction with the blocks `v` that holds the buffers of `H` and logs no sectors but those
of `S`, for all of which there is room. -/
structure Txn.At (sb : Superblock) (S : Finset ℕ) (v : Blocks) (H : Finset ℕ) (t : Txn) :
    Prop where
  view : t.view = v
  held : t.held = H
  nodup : t.logged.Nodup
  logged : t.logged.toFinset ⊆ S
  held_le : H.card ≤ 2
  room : S.card ≤ 7
  space : S.card + 1 < sb.nlog

/-- The sectors below the log, and only those of `S` are written. -/
def Within (sb : Superblock) (S : Finset ℕ) : Cmd → Prop
  | .bread s => s < sb.start
  | .logWrite s _ => (s < sb.start ∧ s ≠ 1) ∧ s ∈ S
  | .brelse _ => True
  | .panic _ => True

/-- The code turns the blocks `v` into `v'` and the buffers that are held from `H` into `H'`. -/
def Does {α : Type} (sb : Superblock) (S : Finset ℕ) (v : Blocks) (H : Finset ℕ) (p : Code α)
    (a : α) (v' : Blocks) (H' : Finset ℕ) : Prop :=
  p.Takes (Within sb S) (Txn.exec sb.nlog) (Txn.At sb S v H) a (Txn.At sb S v' H')

variable {α β : Type} {sb : Superblock} {S H H' H'' : Finset ℕ} {v v' v'' : Blocks} {s b : ℕ}
  {data : Sector} {t : Txn} {x : α} {y : β}

theorem Within.home {c : Cmd} (h : Within sb S c) : Home sb c := by
  cases c with
  | bread s => exact h
  | logWrite s data => exact h.1
  | brelse s => trivial
  | panic p => trivial

namespace Txn.At

theorem length_le (h : t.At sb S v H) : t.logged.length ≤ S.card := by
  rw [← List.toFinset_card_of_nodup h.nodup]
  exact Finset.card_le_card h.logged

theorem card_pinned_le (h : t.At sb S v H) : t.pinned.card ≤ H.card + S.card := by
  rw [Txn.pinned, h.held]
  exact (Finset.card_union_le _ _).trans (Nat.add_le_add_left (Finset.card_le_card h.logged) _)

end Txn.At

namespace Does

theorem pure (x : α) : Does sb S v H (Pure.pure x : Code α) x v H := Prog.Takes.pure x

theorem bind {p : Code α} {f : α → Code β} (hp : Does sb S v H p x v' H')
    (hf : Does sb S v' H' (f x) y v'' H'') : Does sb S v H (p >>= f) y v'' H'' :=
  Prog.Takes.bind hp hf

theorem bread (hs : s < sb.start) (hn : s ∉ H) (hH : H.card ≤ 1) :
    Does sb S v H (Code.bread s) (v s) v (insert s H) := by
  refine Prog.Takes.command hs fun t ht => ?_
  have hcard := ht.card_pinned_le
  have hroom := ht.room
  have hins := Finset.card_insert_le s t.pinned
  refine ⟨{ t with held := insert s H }, ?_, { ht with held := rfl, held_le := ?_ }⟩
  · rw [Txn.exec, if_neg (by rwa [ht.held]), if_neg (by rw [NBUF]; omega), ht.view, ht.held]
  · exact (Finset.card_insert_le s H).trans (Nat.succ_le_succ hH)

theorem logWrite (hs : s < sb.start) (h1 : s ≠ 1) (hS : s ∈ S) (hH : s ∈ H) (data : Sector) :
    Does sb S v H (Code.logWrite s data) () (Function.update v s data) H := by
  refine Prog.Takes.command ⟨⟨hs, h1⟩, hS⟩ fun t ht => ?_
  have hlen := ht.length_le
  have hcard := ht.card_pinned_le
  have hroom := ht.room
  have hspace := ht.space
  have hheld := ht.held_le
  refine ⟨⟨Function.update v s data, H, Txn.note s t.logged⟩, ?_,
    { ht with view := rfl, held := rfl, nodup := Active.nodup_note ht.nodup, logged := ?_ }⟩
  · rw [Txn.exec, if_neg (by rw [LOGSIZE]; omega), if_neg (by rwa [ht.held, not_not]),
      if_neg (by rw [NBUF]; omega), ht.view, ht.held]
  · rw [Active.toFinset_note]
    exact Finset.insert_subset hS ht.logged

theorem brelse (hn : s ∉ H) : Does sb S v (insert s H) (Code.brelse s) () v H := by
  refine Prog.Takes.command trivial fun t ht => ?_
  refine ⟨{ t with held := H }, ?_, { ht with held := rfl, held_le := ?_ }⟩
  · rw [Txn.exec, ht.held, if_pos (Finset.mem_insert_self s H), Finset.erase_insert hn]
  · exact (Finset.card_le_card (Finset.subset_insert s H)).trans ht.held_le

/-- A block is read, changed and released. -/
theorem update (hs : s < sb.start) (h1 : s ≠ 1) (hS : s ∈ S) (hn : s ∉ H) (hH : H.card ≤ 1)
    (f : Sector → Sector) :
    Does sb S v H (do let b ← Code.bread s; Code.logWrite s (f b); Code.brelse s) ()
      (Function.update v s (f (v s))) H :=
  .bind (bread hs hn hH) (.bind (logWrite hs h1 hS (Finset.mem_insert_self s H) _) (brelse hn))

theorem readsb (hsb : 1 < sb.start) (hv : .ofSector (v 1) = sb) (hn : 1 ∉ H) (hH : H.card ≤ 1) :
    Does sb S v H Code.readsb sb v H := by
  rw [← hv]
  rw [← hv] at hsb
  exact .bind (bread hsb hn hH) (.bind (brelse hn) (.pure _))

theorem bzero (hs : s < sb.start) (h1 : s ≠ 1) (hS : s ∈ S) (hn : s ∉ H) (hH : H.card ≤ 1) :
    Does sb S v H (Code.bzero s) () (Function.update v s (Block.zero 512)) H :=
  update hs h1 hS hn hH fun _ => Block.zero 512

end Does

/-! ### Transactions -/

theorem Txn.At.start (hS : S.card ≤ 7) (hn : S.card + 1 < sb.nlog) (v : Blocks) :
    (Txn.start v).At sb S v ∅ :=
  ⟨rfl, rfl, List.nodup_nil, Finset.empty_subset S, Nat.zero_le _, hS, hn⟩

theorem Does.transaction {on : Prop} {m : Machine} {p : Code α} (h : Does sb S v ∅ p x v' ∅)
    (hS : S.card ≤ 7) (hn : S.card + 1 < sb.nlog) (hsb : 1 < sb.start) (Q : Quiet sb v m)
    (hp : on → m.power = none) :
    EnsuresOr (fun r => r.1 = x ∧ Quiet sb v' r.2 ∧ (on → r.2.power = none))
      (Cut on fun d => Durable sb v d ∨ Durable sb v' d) (Fs.transaction p m) := by
  obtain ⟨t, hrun, ht⟩ := h _ (.start hS hn v)
  have := Q.transaction hsb hp (hrun.imp fun _ => Within.home) ht.held
  rwa [ht.view] at this

/-! ### The bitmap -/

/-- The block is marked in the bitmap. -/
def used (sb : Superblock) (v : Blocks) (b : ℕ) : Bool := (v (bblock b sb.ninodes)).bit (b % BPB)

/-- The first block that is free. -/
structure FirstFree (sb : Superblock) (v : Blocks) (b : ℕ) : Prop where
  free : used sb v b = false
  first : ∀ c, c < b → used sb v c = true

/-- The blocks after `b` has been allocated. -/
def alloc (sb : Superblock) (v : Blocks) (b : ℕ) : Blocks :=
  let bb := bblock b sb.ninodes
  Function.update (Function.update v bb ((v bb).setBit (b % BPB))) b (Block.zero 512)

/-- The blocks after `b` has been freed. -/
def free (sb : Superblock) (v : Blocks) (b : ℕ) : Blocks :=
  let bb := bblock b sb.ninodes
  Function.update v bb ((v bb).clearBit (b % BPB))

theorem bblock_mono {b c : ℕ} (h : b ≤ c) (ninodes : ℕ) : bblock b ninodes ≤ bblock c ninodes := by
  exact Nat.add_le_add_right (Nat.add_le_add_right (Nat.div_le_div_right h) _) _

theorem bblock_ne_one (b ninodes : ℕ) : bblock b ninodes ≠ 1 :=
  ((by decide : 1 < 3).trans_le (Nat.le_add_left 3 _)).ne'

theorem bblock_of_lt {j bi : ℕ} (h : bi < BPB) (ninodes : ℕ) :
    bblock (j * BPB + bi) ninodes = bblock (j * BPB) ninodes := by
  have hB : 0 < BPB := by decide
  unfold bblock
  rw [Nat.mul_comm, Nat.mul_add_div hB, Nat.div_eq_of_lt h, Nat.mul_div_cancel_left j hB]
  rfl

/-- The bit of a block that is in the same block of the bitmap. -/
theorem used_of_lt {j bi : ℕ} (h : bi < BPB) :
    used sb v (j * BPB + bi) = (v (bblock (j * BPB) sb.ninodes)).bit bi := by
  rw [used, bblock_of_lt h, Nat.mul_comm, Nat.mul_add_mod, Nat.mod_eq_of_lt h]

/-- The inner loop finds the first free block, if it is in this block of the bitmap. -/
theorem freeBit_eq {j bi : ℕ} (h : bi < BPB) (F : FirstFree sb v (j * BPB + bi))
    (hsize : j * BPB + bi < sb.size) :
    Code.freeBit sb.size (j * BPB) (v (bblock (j * BPB) sb.ninodes)) = some bi := by
  have hfree := F.free
  rw [used_of_lt h] at hfree
  rw [Code.freeBit, List.find?_range_eq_some]
  refine ⟨by rw [hfree]; rfl, List.mem_range.2 (by omega), fun c hc => ?_⟩
  have hfirst := F.first (j * BPB + c) (by omega)
  rw [used_of_lt (hc.trans h)] at hfirst
  rw [hfirst]
  rfl

theorem freeBit_eq_none {j : ℕ} (F : FirstFree sb v b) (hj : (j + 1) * BPB ≤ b) :
    Code.freeBit sb.size (j * BPB) (v (bblock (j * BPB) sb.ninodes)) = none := by
  rw [Code.freeBit, List.find?_eq_none]
  intro c hc
  have hlt : c < BPB := lt_of_lt_of_le (List.mem_range.1 hc) (min_le_left _ _)
  have hfirst := F.first (j * BPB + c) (by rw [Nat.succ_mul] at hj; omega)
  rw [used_of_lt hlt] at hfirst
  rw [hfirst]
  decide

section

variable (hb : b < sb.start) (h1 : b ≠ 1) (hmap : bblock b sb.ninodes < sb.start) (hbS : b ∈ S)
  (hmS : bblock b sb.ninodes ∈ S) (hbH : b ∉ H) (hH : H.card ≤ 1)
  (hmH : ∀ c, c ≤ b → bblock c sb.ninodes ∉ H)
include hb h1 hmap hbS hmS hbH hH hmH

/-- The outer loop, when the blocks before are all in use. -/
theorem ballocFrom_does (F : FirstFree sb v b) (k j : ℕ) (hj : j * BPB ≤ b)
    (hk : b < (j + k) * BPB) :
    Does sb S v H (Code.ballocFrom sb k (j * BPB)) b (alloc sb v b) H := by
  have hsize : b < sb.size := lt_of_lt_of_le hb (Nat.sub_le _ _)
  induction k generalizing j with
  | zero =>
    rw [Nat.add_zero] at hk
    omega
  | succ k ih =>
    have hlt : bblock (j * BPB) sb.ninodes < sb.start := (bblock_mono hj _).trans_lt hmap
    refine .bind (.bread hlt (hmH _ hj) hH) ?_
    by_cases hbi : b < (j + 1) * BPB
    · -- it is in this block of the bitmap
      obtain ⟨bi, rfl⟩ : ∃ bi, b = j * BPB + bi := ⟨b - j * BPB, by omega⟩
      have hbi' : bi < BPB := by
        rw [Nat.succ_mul] at hbi
        omega
      rw [bblock_of_lt hbi'] at hmS
      rw [freeBit_eq hbi' F hsize]
      have hw : Does sb S v (insert (bblock (j * BPB) sb.ninodes) H) _ _ _ _ :=
        .logWrite hlt (bblock_ne_one _ _) hmS (Finset.mem_insert_self _ _)
          ((v (bblock (j * BPB) sb.ninodes)).setBit bi)
      refine .bind hw (.bind (.brelse (hmH _ hj)) (.bind (.bzero hb h1 hbS hbH hH) ?_))
      have hmod : (j * BPB + bi) % BPB = bi := by
        rw [Nat.mul_comm, Nat.mul_add_mod, Nat.mod_eq_of_lt hbi']
      rw [alloc, bblock_of_lt hbi', hmod]
      exact .pure _
    · rw [not_lt] at hbi
      rw [freeBit_eq_none F hbi]
      refine .bind (.brelse (hmH _ hj)) ?_
      rw [← Nat.succ_mul]
      exact ih (j + 1) hbi (by rwa [Nat.add_right_comm, Nat.add_assoc])

/-- `balloc` takes the first block that is free, marks it and clears it. -/
theorem balloc_does (F : FirstFree sb v b) (hsb : 1 < sb.start) (hv : .ofSector (v 1) = sb)
    (hn : 1 ∉ H) : Does sb S v H Code.balloc b (alloc sb v b) H := by
  refine .bind (.readsb hsb hv hn hH) ?_
  have hsize : b < sb.size := lt_of_lt_of_le hb (Nat.sub_le _ _)
  have hloop := ballocFrom_does hb h1 hmap hbS hmS hbH hH hmH F ((sb.size + BPB - 1) / BPB) 0
  rw [Nat.zero_mul, Nat.zero_add] at hloop
  refine hloop (Nat.zero_le b) ?_
  rw [BPB]
  omega

end

/-- `bfree` clears the bit of a block that is in use. -/
theorem bfree_does (hu : used sb v b = true) (hmap : bblock b sb.ninodes < sb.start)
    (hmS : bblock b sb.ninodes ∈ S) (hmH : bblock b sb.ninodes ∉ H) (hH : H.card ≤ 1)
    (hsb : 1 < sb.start) (hv : .ofSector (v 1) = sb) (hn : 1 ∉ H) :
    Does sb S v H (Code.bfree b) () (free sb v b) H := by
  refine .bind (.readsb hsb hv hn hH) (.bind (.bread hmap hmH hH) ?_)
  rw [used] at hu
  rw [if_pos hu]
  exact .bind (.logWrite hmap (bblock_ne_one _ _) hmS (Finset.mem_insert_self _ _) _) (.brelse hmH)

end Fs

end Xv6Editor
