import Mathlib.Algebra.Ring.Nat
import Mathlib.Logic.Function.Basic
import Mathlib.Data.Nat.Basic
import Mathlib.Order.Basic

/-!
# `umalloc.c`: the memory allocator

`malloc` and `free` keep the free blocks in a ring sorted by address, whose links stand in the
blocks themselves: a block of `k` units begins with a `Header`, one unit long, that has the next
free block in `ptr` and `k` in `size`.  The memory the caller is given starts after the header.

Addresses are counted in units of `sizeof(Header)` bytes from `&base`, the static header that
anchors the ring, so `&base` is `0` and the break, from which `sbrk` hands out memory, is above it.
The memory holds headers only because a unit is as large as a header: what a program stores in its
blocks is kept in the same units and can be read back as if it were a header.

A loop over the ring ends only if the ring is one.  The loops here are given as many rounds as
there are units of memory; `none` says that they were not enough, or that a request is so large
that `sbrk` is called with a negative number.

The kernel refuses memory that would end at `KERNBASE` or above, and may refuse any other.  Below
`KERNBASE` neither an address nor a size comes near `2 ^ 32`, so that of all numbers only the size
of a request has to be reduced.
-/

namespace Xv6Editor

namespace Umalloc

/-- `union header`: one unit of memory. -/
@[ext] structure Header where
  /-- The next free block. -/
  ptr : ℕ
  /-- The size of the block in units, its header included. -/
  size : ℕ
deriving Repr, DecidableEq

/-- `sizeof(Header)`, in bytes. -/
def unitSize : ℕ := 8

/-- `&base`. -/
def base : ℕ := 0

/-- The first address that belongs to the kernel. -/
def KERNBASE : ℕ := 0x80000000

/-- What the allocator works on. -/
structure Arena where
  /-- The memory of the process, `base` included. -/
  mem : ℕ → Header
  /-- The free block the next search starts from, or `NULL` before the first call. -/
  freep : Option ℕ
  /-- The break: the end of the memory the process has. -/
  brk : ℕ

/-- `a->s.ptr = v` -/
def setPtr (mem : ℕ → Header) (a v : ℕ) : ℕ → Header :=
  Function.update mem a { mem a with ptr := v }

/-- `a->s.size = v` -/
def setSize (mem : ℕ → Header) (a v : ℕ) : ℕ → Header :=
  Function.update mem a { mem a with size := v }

/-! ### `free` -/

/-- The loop of `free`: walk the ring from `p` to the free block after which `bp` belongs. -/
def freeLoop (mem : ℕ → Header) (bp : ℕ) : ℕ → ℕ → Option ℕ
  | 0, _ => none
  | fuel + 1, p =>
    if bp > p ∧ bp < (mem p).ptr then some p
    else if p ≥ (mem p).ptr ∧ (bp > p ∨ bp < (mem p).ptr) then some p
    else freeLoop mem bp fuel (mem p).ptr

/-- Both halves of the rest of `free`: link `a` to `b`, or, if `b` begins where `a` ends, make the
two of them one block. -/
def join (mem : ℕ → Header) (a b : ℕ) : ℕ → Header :=
  if a + (mem a).size = b then
    let mem₁ := setSize mem a ((mem a).size + (mem b).size)
    setPtr mem₁ a (mem₁ b).ptr
  else setPtr mem a b

/-- `free(ap)` -/
def free (ap : ℕ) (s : Arena) : Option Arena := do
  let bp := ap - 1
  -- `p = freep` with `freep` still `NULL` is a read through `NULL`
  let freep ← s.freep
  let p ← freeLoop s.mem bp s.brk freep
  let mem := join s.mem bp (s.mem p).ptr
  let mem := join mem p bp
  some { s with mem := mem, freep := some p }

/-! ### `malloc` -/

/-- `sbrk` of `n` units.  `grant` says whether the kernel has the pages; it gives none that would
end at `KERNBASE` or above. -/
def sbrk (grant : Bool) (n : ℕ) (s : Arena) : Option (ℕ × Arena) :=
  if grant = true ∧ (s.brk + n) * unitSize < KERNBASE then
    some (s.brk, { s with brk := s.brk + n })
  else none

/-- The units that `morecore(nu)` asks the kernel for. -/
def coreUnits (nu : ℕ) : ℕ := if nu < 4096 then 4096 else nu

/-- `morecore(nu)`: the new `freep`, or `NULL`. -/
def morecore (grant : Bool) (nu : ℕ) (s : Arena) : Option (Option ℕ × Arena) :=
  -- `sbrk` takes an `int`; a negative one would take memory away
  if coreUnits nu * unitSize ≥ 2 ^ 31 then none
  else
    match sbrk grant (coreUnits nu) s with
    | none => some (none, s)
    | some (hp, s) => do
      let s := { s with mem := setSize s.mem hp (coreUnits nu) }
      let s ← free (hp + 1) s
      some (s.freep, s)

/-- What `malloc` does with the first block `p` that is large enough; `prevp` is the block before
it in the ring. -/
def take (nunits prevp p : ℕ) (s : Arena) : ℕ × Arena :=
  if (s.mem p).size = nunits then
    (p + 1, { s with mem := setPtr s.mem prevp (s.mem p).ptr, freep := some prevp })
  else
    -- the tail end of the block is handed out
    let mem := setSize s.mem p ((s.mem p).size - nunits)
    let q := p + (mem p).size
    (q + 1, { s with mem := setSize mem q nunits, freep := some prevp })

/-- The loop of `malloc`. -/
def mallocLoop (grant : Bool) (nunits : ℕ) : ℕ → ℕ → ℕ → Arena → Option (Option ℕ × Arena)
  | 0, _, _, _ => none
  | fuel + 1, prevp, p, s =>
    if (s.mem p).size ≥ nunits then
      let (ap, s) := take nunits prevp p s
      some (some ap, s)
    else if some p = s.freep then
      match morecore grant nunits s with
      | none => none
      | some (none, s) => some (none, s)
      | some (some p, s) => mallocLoop grant nunits fuel p (s.mem p).ptr s
    else mallocLoop grant nunits fuel p (s.mem p).ptr s

/-- The units that a block of `nbytes` bytes takes, its header included. -/
def units (nbytes : ℕ) : ℕ := (nbytes + unitSize - 1) % 2 ^ 32 / unitSize + 1

/-- The largest request for which `sbrk` is called with a positive number. -/
def maxRequest : ℕ := 2 ^ 31 - 16

/-- The first statement of `malloc`: the first call of all sets up the ring. -/
def start (s : Arena) : ℕ × Arena :=
  match s.freep with
  | some prevp => (prevp, s)
  | none => (base, { s with mem := Function.update s.mem base ⟨base, 0⟩, freep := some base })

/-- `malloc(nbytes)`: the memory, or `NULL` if the kernel refuses to extend the break. -/
def malloc (grant : Bool) (nbytes : ℕ) (s : Arena) : Option (Option ℕ × Arena) :=
  let nunits := units nbytes
  let (prevp, s) := start s
  mallocLoop grant nunits (2 * s.brk + coreUnits nunits) prevp (s.mem prevp).ptr s

end Umalloc

end Xv6Editor
