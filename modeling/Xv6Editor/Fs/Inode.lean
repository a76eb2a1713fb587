import Mathlib.Data.Fin.Basic
import Xv6Editor.Fs.Blocks

/-!
# Inodes

The second layer of `fs.c`: inodes on the disk, their copies in memory, and the blocks that hold the
content of a file.  The first `NDIRECT` blocks are listed in the inode, the others in a block of
their own, the indirect block.

The copy of an inode in memory is a value that the code passes on.  `Code.ilock` reads the inode if
there is no valid copy.  `Code.iget` finds the entry of the inode cache where the copy has its
place.

* `getInode_putInode` : an inode is read as it was written, and the others in the block stay.
-/

namespace Xv6Editor

namespace Fs

/-- The number of blocks that are listed in the inode. -/
def NDIRECT : ℕ := 12

/-- The number of blocks that are listed in the indirect block. -/
def NINDIRECT : ℕ := 128

/-- The largest number of blocks of a file. -/
def MAXFILE : ℕ := NDIRECT + NINDIRECT

/-- The number of entries of the inode cache. -/
abbrev NINODE : ℕ := 50

/-- The type of a device. -/
def T_DEV : ℕ := 3

/-- The number of the driver of the console. -/
def CONSOLE : ℕ := 1

/-- The fields that `struct dinode` and `struct inode` share. -/
structure Inode where
  type : ℕ
  major : ℕ
  minor : ℕ
  nlink : ℕ
  size : ℕ
  addrs : Fin 13 → ℕ

namespace Inode

/-- `memset(dip, 0, sizeof(*dip))`. -/
def zero : Inode := ⟨0, 0, 0, 0, 0, fun _ => 0⟩

/-- An inode as it is on the disk. -/
def toBytes (ip : Inode) : List UInt8 :=
  toLE 2 ip.type ++ (toLE 2 ip.major ++ (toLE 2 ip.minor ++ (toLE 2 ip.nlink ++
    (toLE 4 ip.size ++ words (List.ofFn ip.addrs)))))

/-- The numbers fit. -/
structure Small (ip : Inode) : Prop where
  type : ip.type < 2 ^ 16
  major : ip.major < 2 ^ 16
  minor : ip.minor < 2 ^ 16
  nlink : ip.nlink < 2 ^ 16
  size : ip.size < 2 ^ 32
  addrs : ∀ k, ip.addrs k < 2 ^ 32

/-- The number of the indirect block. -/
def indirect (ip : Inode) : ℕ := ip.addrs 12

/-- Put a number into the list. -/
def setAddr (ip : Inode) (k : Fin 13) (b : ℕ) : Inode :=
  { ip with addrs := Function.update ip.addrs k b }

end Inode

/-- The inode `i` in its block. -/
def getInode (b : Sector) (i : ℕ) : Inode :=
  let o := 64 * (i % IPB)
  ⟨numAt 2 b.bytes o, numAt 2 b.bytes (o + 2), numAt 2 b.bytes (o + 4), numAt 2 b.bytes (o + 6),
    numAt 4 b.bytes (o + 8), fun k => numAt 4 b.bytes (o + (12 + 4 * k))⟩

/-- Put the inode `i` into its block. -/
def putInode (b : Sector) (i : ℕ) (ip : Inode) : Sector := b.put (64 * (i % IPB)) ip.toBytes

/-- The inode `i` on the disk. -/
def inodeAt (v : Blocks) (i : ℕ) : Inode := getInode (v (iblock i)) i

/-- An entry of the inode cache. -/
structure MemInode where
  inum : ℕ
  ref : ℕ
  /-- `I_BUSY`. -/
  busy : Bool
  /-- The copy of the inode, if there is a valid one (`I_VALID`). -/
  copy : Option Inode

/-- `icache`, for the one device. -/
abbrev Icache : Type := Fin NINODE → MemInode

namespace Code

/-! ### Inodes -/

/-- `iupdate(ip)`. -/
def iupdate (inum : ℕ) (ip : Inode) : Code Unit := do
  let bp ← bread (iblock inum)
  logWrite (iblock inum) (putInode bp inum ip)
  brelse (iblock inum)

/-- `ilock(ip)`: the inode is read if there is no valid copy in memory. -/
def ilock (inum : ℕ) : Option Inode → Code Inode
  | some ip => return ip
  | none => do
    let bp ← bread (iblock inum)
    brelse (iblock inum)
    if (getInode bp inum).type = 0 then panic .noType else return getInode bp inum

/-! ### The blocks of a file -/

/-- The indirect block, allocated if necessary. -/
def loadIndirect (ip : Inode) : Code Inode :=
  if ip.indirect = 0 then do
    let addr ← balloc
    return ip.setAddr 12 addr
  else return ip

/-- The entry `j` of the indirect block, allocated if necessary. -/
def loadEntry (ip : Inode) (j : ℕ) : Code ℕ := do
  let bp ← bread ip.indirect
  if bp.word j = 0 then
    let addr ← balloc
    logWrite ip.indirect (bp.setWord j addr)
    brelse ip.indirect
    return addr
  else
    brelse ip.indirect
    return bp.word j

/-- `bmap(ip, bn)`. -/
def bmap (ip : Inode) (bn : ℕ) : Code (ℕ × Inode) :=
  if h : bn < NDIRECT then
    if ip.addrs ⟨bn, h.trans (by decide)⟩ = 0 then do
      let addr ← balloc
      return (addr, ip.setAddr ⟨bn, h.trans (by decide)⟩ addr)
    else return (ip.addrs ⟨bn, h.trans (by decide)⟩, ip)
  else if bn - NDIRECT < NINDIRECT then do
    let ip ← loadIndirect ip
    let addr ← loadEntry ip (bn - NDIRECT)
    return (addr, ip)
  else panic .outOfRange

/-- The first loop of `itrunc`. -/
def freeDirect (ip : Inode) : List (Fin 13) → Code Inode
  | [] => return ip
  | k :: ks =>
    if ip.addrs k ≠ 0 then do
      bfree (ip.addrs k)
      freeDirect (ip.setAddr k 0) ks
    else freeDirect ip ks

/-- The second loop of `itrunc`, over the entries of the indirect block. -/
def freeEntries (bp : Sector) : List ℕ → Code Unit
  | [] => return ()
  | j :: js =>
    if bp.word j ≠ 0 then do
      bfree (bp.word j)
      freeEntries bp js
    else freeEntries bp js

/-- The indirect block is freed, and what is listed there. -/
def freeIndirect (ip : Inode) : Code Inode :=
  if ip.indirect ≠ 0 then do
    let bp ← bread ip.indirect
    freeEntries bp (List.range NINDIRECT)
    brelse ip.indirect
    bfree ip.indirect
    return ip.setAddr 12 0
  else return ip

/-- `itrunc(ip)`. -/
def itrunc (inum : ℕ) (ip : Inode) : Code Inode := do
  let ip ← freeDirect ip (List.ofFn Fin.castSucc)
  let ip ← freeIndirect ip
  iupdate inum { ip with size := 0 }
  return { ip with size := 0 }

/-- `iput(ip)` of the last reference to an inode: without links, it is freed. -/
def iput (inum : ℕ) (ip : Inode) : Code Unit :=
  if ip.nlink = 0 then do
    let ip ← itrunc inum ip
    iupdate inum { ip with type := 0 }
  else return ()

/-! ### The content of a file -/

/-- The loop of `readi`: `n` more bytes from `off` on. -/
def readLoop (ip : Inode) (off n : ℕ) : Code (List UInt8 × Inode) :=
  if n = 0 then return ([], ip)
  else do
    let (addr, ip) ← bmap ip (off / 512)
    let bp ← bread addr
    let m := min n (512 - off % 512)
    brelse addr
    let (rest, ip) ← readLoop ip (off + m) (n - m)
    return (slice bp.bytes (off % 512) m ++ rest, ip)
termination_by n
decreasing_by omega

/-- `readi(ip, dst, off, n)`: the bytes, or nothing for `-1`.  The driver of the console returns
`console`. -/
def readi (console : Option (List UInt8)) (ip : Inode) (off n : ℕ) :
    Code (Option (List UInt8) × Inode) :=
  if ip.type = T_DEV then return (if ip.major = CONSOLE then console else none, ip)
  else if ip.size < off ∨ (off + n) % 2 ^ 32 < off then return (none, ip)
  else do
    let (bytes, ip) ← readLoop ip off (if ip.size < (off + n) % 2 ^ 32 then ip.size - off else n)
    return (some bytes, ip)

/-- The loop of `writei`: the bytes of `src` go to `off`. -/
def writeLoop (ip : Inode) (off : ℕ) (src : List UInt8) : Code Inode :=
  if src = [] then return ip
  else do
    let (addr, ip) ← bmap ip (off / 512)
    let bp ← bread addr
    let m := min src.length (512 - off % 512)
    logWrite addr (bp.put (off % 512) (src.take m))
    brelse addr
    writeLoop ip (off + m) (src.drop m)
termination_by src.length
decreasing_by
  rw [List.length_drop]
  have := List.length_pos_of_ne_nil ‹_›
  omega

/-- `writei(ip, src, off, n)`: the number of bytes, or nothing for `-1`.  What goes to the console
does not touch the disk. -/
def writei (inum : ℕ) (ip : Inode) (src : List UInt8) (off : ℕ) : Code (Option ℕ × Inode) :=
  if ip.type = T_DEV then return (if ip.major = CONSOLE then some src.length else none, ip)
  else if ip.size < off ∨ (off + src.length) % 2 ^ 32 < off then return (none, ip)
  else if MAXFILE * 512 < (off + src.length) % 2 ^ 32 then return (none, ip)
  else do
    let ip ← writeLoop ip off src
    if 0 < src.length ∧ ip.size < off + src.length then
      iupdate inum { ip with size := off + src.length }
      return (some src.length, { ip with size := off + src.length })
    else return (some src.length, ip)

end Code

/-! ### The format -/

variable {ip : Inode} {b : Sector} {v : Blocks} {i j : ℕ}

namespace Inode

theorem addrs_setAddr (ip : Inode) (k l : Fin 13) (b : ℕ) :
    (ip.setAddr k b).addrs l = if l = k then b else ip.addrs l := Function.update_apply ..

theorem indirect_setAddr (ip : Inode) (k : Fin 13) (b : ℕ) :
    (ip.setAddr k b).indirect = if 12 = k then b else ip.indirect := ip.addrs_setAddr k 12 b

theorem length_toBytes (ip : Inode) : ip.toBytes.length = 64 := by
  simp [toBytes, length_words]

theorem ofBytes_toBytes (h : ip.Small) :
    numAt 2 ip.toBytes 0 = ip.type ∧ numAt 2 ip.toBytes 2 = ip.major ∧
      numAt 2 ip.toBytes 4 = ip.minor ∧ numAt 2 ip.toBytes 6 = ip.nlink ∧
      numAt 4 ip.toBytes 8 = ip.size ∧
      ∀ k : Fin 13, numAt 4 ip.toBytes (12 + 4 * k) = ip.addrs k := by
  have hskip : ∀ {w n k : ℕ} (x : ℕ) (bs : List UInt8),
      numAt w (toLE n x ++ bs) (n + k) = numAt w bs k :=
    fun x bs => numAt_append_right (length_toLE _ x)
  refine ⟨?_, ?_, ?_, ?_, ?_, fun k => ?_⟩
  · exact numAt_toLE_append h.type _
  · rw [toBytes, hskip (k := 0)]
    exact numAt_toLE_append h.major _
  · rw [toBytes, hskip (k := 2), hskip (k := 0)]
    exact numAt_toLE_append h.minor _
  · rw [toBytes, hskip (k := 4), hskip (k := 2), hskip (k := 0)]
    exact numAt_toLE_append h.nlink _
  · rw [toBytes, hskip (k := 6), hskip (k := 4), hskip (k := 2), hskip (k := 0)]
    exact numAt_toLE_append h.size _
  · have hsmall : ∀ x ∈ List.ofFn ip.addrs, x < 2 ^ 32 := by
      intro x hx
      obtain ⟨k, rfl⟩ := List.mem_ofFn.1 hx
      exact h.addrs k
    have hwords := numAt_words hsmall (k.2.trans_eq (List.length_ofFn).symm)
    rw [toBytes, show 12 + 4 * (k : ℕ) = 2 + (2 + (2 + (2 + (4 + 4 * (k : ℕ))))) by omega,
      hskip, hskip, hskip, hskip, hskip, hwords, List.get_eq_getElem, List.getElem_ofFn]

end Inode

theorem getInode_putInode (b : Sector) (h : ip.Small) :
    getInode (putInode b i ip) j = if j % IPB = i % IPB then ip else getInode b j := by
  have hlen : 64 * (i % IPB) + ip.toBytes.length ≤ 512 := by
    rw [ip.length_toBytes, IPB]
    omega
  have hoff : 64 * (i % IPB) ≤ b.bytes.length := by
    rw [b.length_bytes]
    omega
  rw [getInode, getInode, putInode, b.bytes_put hlen]
  split_ifs with hij
  · have hpoke : ∀ w k, k + w ≤ 64 →
        numAt w (poke b.bytes (64 * (i % IPB)) ip.toBytes) (64 * (j % IPB) + k) =
          numAt w ip.toBytes k := by
      intro w k hk
      rw [numAt, hij, slice_poke_inside hoff (by rwa [ip.length_toBytes]), numAt]
    obtain ⟨h₀, h₁, h₂, h₃, h₄, h₅⟩ := Inode.ofBytes_toBytes h
    have h₀' := hpoke 2 0 (by omega)
    rw [Nat.add_zero] at h₀'
    have haddrs : (fun k : Fin 13 => numAt 4 (poke b.bytes (64 * (i % IPB)) ip.toBytes)
        (64 * (j % IPB) + (12 + 4 * k))) = ip.addrs := by
      funext k
      rw [hpoke 4 _ (by omega), h₅]
    simp only [h₀', hpoke 2 2 (by omega), hpoke 2 4 (by omega), hpoke 2 6 (by omega),
      hpoke 4 8 (by omega), haddrs, h₀, h₁, h₂, h₃, h₄]
  · have hpoke : ∀ w k, k + w ≤ 64 →
        numAt w (poke b.bytes (64 * (i % IPB)) ip.toBytes) (64 * (j % IPB) + k) =
          numAt w b.bytes (64 * (j % IPB) + k) := by
      intro w k hk
      rw [numAt, slice_poke_of_disjoint hoff (by rw [ip.length_toBytes]; omega), numAt]
    have h₀' := hpoke 2 0 (by omega)
    rw [Nat.add_zero] at h₀'
    have haddrs : (fun k : Fin 13 => numAt 4 (poke b.bytes (64 * (i % IPB)) ip.toBytes)
        (64 * (j % IPB) + (12 + 4 * k))) =
          fun k : Fin 13 => numAt 4 b.bytes (64 * (j % IPB) + (12 + 4 * k)) := by
      funext k
      rw [hpoke 4 _ (by omega)]
    simp only [h₀', hpoke 2 2 (by omega), hpoke 2 4 (by omega), hpoke 2 6 (by omega),
      hpoke 4 8 (by omega), haddrs]

theorem getInode_small (b : Sector) (i : ℕ) : (getInode b i).Small where
  type := numAt_lt 2 _ _
  major := numAt_lt 2 _ _
  minor := numAt_lt 2 _ _
  nlink := numAt_lt 2 _ _
  size := numAt_lt 4 _ _
  addrs := fun _ => numAt_lt 4 _ _

end Fs

end Xv6Editor
