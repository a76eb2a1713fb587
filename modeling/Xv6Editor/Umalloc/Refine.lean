import Mathlib.Data.List.ReduceOption
import Xv6Editor.CMem.Bytes
import Xv6Editor.CMem.Heap
import Xv6Editor.CMem.Words
import Xv6Editor.Umalloc.Invariant

/-!
# The allocator implements a heap of blocks

The editor's model allocates from a `Heap`, where a pointer is the number of its block, a block is
never lost or shared and its contents change only when it is written.  Here `umalloc.c` is shown
to give exactly that.  A program is a list of operations `HeapOp`: it asks for blocks of any sizes,
writes bytes into them and releases them.  It runs in the memory of a process, where the blocks are
wherever `malloc` has put them (`onArena`); what it does is also said of a heap (`OnHeap`).

* `exists_heap_of_run` : whatever a program does on the memory, it does on a heap.  What `malloc`
  finds in the blocks is the only thing the heap leaves open, its `junk`; and `malloc` returns
  `NULL` only if the kernel refuses memory.
* `ring_of_all_freed` : when a program has released all its blocks, the free list is one block
  with all the memory in it, whatever the sizes of the blocks were.
* `malloc_after_free` : memory that has been released is handed out again without a call of
  `sbrk`.

A request of more than `maxRequest` bytes is not among the operations: for such a request
`morecore` calls `sbrk` with a number that is negative.
-/

namespace Xv6Editor

namespace Umalloc

/-! ### The bytes in memory -/

/-- The bytes of a unit. -/
def Header.bytes (h : Header) : List UInt8 := toLE 4 h.ptr ++ toLE 4 h.size

/-- The unit with the given bytes. -/
def Header.ofBytes (bs : List UInt8) : Header := ⟨ofLE (bs.take 4), ofLE ((bs.drop 4).take 4)⟩

theorem Header.bytes_ofBytes {bs : List UInt8} (h : bs.length = 8) :
    (Header.ofBytes bs).bytes = bs := by
  have h₁ : (bs.take 4).length = 4 := by
    rw [List.length_take]
    omega
  have h₂ : ((bs.drop 4).take 4).length = 4 := by
    rw [List.length_take, List.length_drop]
    omega
  have e₁ := toLE_ofLE (bs.take 4)
  have e₂ := toLE_ofLE ((bs.drop 4).take 4)
  rw [h₁] at e₁
  rw [h₂] at e₂
  have hdrop : (bs.drop 4).take 4 = bs.drop 4 :=
    List.take_of_length_le (by rw [List.length_drop]; omega)
  unfold Header.bytes Header.ofBytes
  rw [e₁, e₂, hdrop, List.take_append_drop]

/-- The bytes of the `k` units from `a` on. -/
def load (mem : ℕ → Header) : ℕ → ℕ → List UInt8
  | _, 0 => []
  | a, k + 1 => (mem a).bytes ++ load mem (a + 1) k

/-- Write `bs` over the `k` units from `a` on. -/
def write (mem : ℕ → Header) (a k : ℕ) (bs : List UInt8) : ℕ → Header := fun u =>
  if a ≤ u ∧ u < a + k then Header.ofBytes ((bs.drop (8 * (u - a))).take 8) else mem u

variable {mem mem' : ℕ → Header} {a k lo : ℕ} {bs : List UInt8}

theorem length_load (mem : ℕ → Header) (a k : ℕ) : (load mem a k).length = 8 * k := by
  induction k generalizing a with
  | zero => rfl
  | succ k ih =>
    rw [load, List.length_append, ih]
    simp [Header.bytes]
    omega

theorem load_congr (h : ∀ u, a ≤ u → u < a + k → mem' u = mem u) :
    load mem' a k = load mem a k := by
  induction k generalizing a with
  | zero => rfl
  | succ k ih =>
    rw [load, load, h a le_rfl (by omega), ih fun u h₁ h₂ => h u (by omega) (by omega)]

theorem load_write (mem : ℕ → Header) (a : ℕ) (h : bs.length = 8 * k) :
    load (write mem a k bs) a k = bs := by
  have key : ∀ (j b : ℕ) (cs : List UInt8), cs.length = 8 * j → b + j = a + k → a ≤ b →
      cs = bs.drop (8 * (b - a)) → load (write mem a k bs) b j = cs := by
    intro j
    induction j with
    | zero =>
      intro b cs hcs _ _ _
      rw [List.length_eq_zero_iff.1 hcs]
      rfl
    | succ j ih =>
      intro b cs hcs hb hab hdrop
      have hunit : write mem a k bs b = Header.ofBytes (cs.take 8) := by
        rw [write, if_pos ⟨hab, by omega⟩, hdrop]
      have hrest : cs.drop 8 = bs.drop (8 * (b + 1 - a)) := by
        rw [hdrop, List.drop_drop]
        congr 1
        omega
      rw [load, hunit, Header.bytes_ofBytes (by rw [List.length_take]; omega),
        ih (b + 1) (cs.drop 8) (by rw [List.length_drop]; omega) (by omega) (by omega) hrest,
        List.take_append_drop]
  exact key k a bs h rfl le_rfl (by rw [Nat.sub_self]; rfl)

theorem write_of_not_mem {u : ℕ} (h : ¬ (a ≤ u ∧ u < a + k)) : write mem a k bs u = mem u :=
  if_neg h

theorem load_add (mem : ℕ → Header) (a k j : ℕ) :
    load mem a (k + j) = load mem a k ++ load mem (a + k) j := by
  induction k generalizing a with
  | zero => rw [Nat.zero_add, load, List.nil_append, Nat.add_zero]
  | succ k ih =>
    rw [Nat.add_right_comm, load, ih, load, List.append_assoc, Nat.add_assoc a 1 k,
      Nat.add_comm 1 k]

/-- Write `bs` from byte `off` of unit `a` on. -/
def storeBytes (mem : ℕ → Header) (a off : ℕ) (bs : List UInt8) : ℕ → Header :=
  -- the units up to the last byte that is written
  let k := (off + bs.length + 7) / 8
  write mem a k (poke (load mem a k) off bs)

theorem load_storeBytes (mem : ℕ → Header) (a : ℕ) {off : ℕ}
    (h : (off + bs.length + 7) / 8 ≤ k) :
    load (storeBytes mem a off bs) a k = poke (load mem a k) off bs := by
  obtain ⟨j, rfl⟩ := Nat.exists_eq_add_of_le h
  have hin : off + bs.length ≤ (load mem a ((off + bs.length + 7) / 8)).length := by
    rw [length_load]
    omega
  have htail : load (storeBytes mem a off bs) (a + (off + bs.length + 7) / 8) j =
      load mem (a + (off + bs.length + 7) / 8) j :=
    load_congr fun u hu _ => write_of_not_mem fun hc => absurd hc.2 (not_lt.2 hu)
  have hhead : load (storeBytes mem a off bs) a ((off + bs.length + 7) / 8) =
      poke (load mem a ((off + bs.length + 7) / 8)) off bs :=
    load_write _ _ (by rw [length_poke hin, length_load])
  rw [load_add, load_add, htail, hhead, poke_append hin]

/-! ### Programs -/

/-- What a program does with its blocks; a block is named by its number. -/
inductive HeapOp
  /-- `malloc(n)`; `grant` says whether the kernel has memory to give. -/
  | malloc (n : ℕ) (grant : Bool)
  /-- Write bytes into a block, from `off` on. -/
  | store (p : Ptr) (off : ℕ) (bs : List UInt8)
  /-- Release a block. -/
  | free (p : Ptr)

/-- A process: its memory, and the blocks that it got, the first one first. -/
structure Process where
  /-- The memory. -/
  arena : Arena
  /-- What `malloc` has returned and the size that was asked for; `none` once it is released. -/
  blocks : List (Option (ℕ × ℕ))

/-- A process that has not called `malloc` yet; its break is at `lo`. -/
def Process.init (mem : ℕ → Header) (lo : ℕ) : Process := ⟨⟨mem, none, lo⟩, []⟩

/-- Block `p`, if it is in use. -/
def Process.block (c : Process) (p : Ptr) : Option (ℕ × ℕ) := c.blocks[p]?.join

/-- What is in the block `b`. -/
def Process.contents (c : Process) (b : ℕ × ℕ) : List UInt8 :=
  (load c.arena.mem b.1 (units b.2 - 1)).take b.2

/-- What is in block `p`. -/
def Process.bytes (c : Process) (p : Ptr) : Option (List UInt8) := (c.block p).map c.contents

/-- The program may do this: it uses only blocks that it has, and stays inside of them. -/
def HeapOp.Allowed (c : Process) : HeapOp → Prop
  | .malloc n _ => n ≤ maxRequest
  | .store p off bs => (c.block p).any fun b => off + bs.length ≤ b.2
  | .free p => (c.block p).isSome

instance (c : Process) (op : HeapOp) : Decidable (op.Allowed c) := by
  cases op <;> unfold HeapOp.Allowed <;> infer_instance

theorem allowed_store {c : Process} {p : Ptr} {off : ℕ} :
    (HeapOp.store p off bs).Allowed c ↔ ∃ b, c.block p = some b ∧ off + bs.length ≤ b.2 := by
  show (c.block p).any (fun b => decide (off + bs.length ≤ b.2)) = true ↔ _
  cases c.block p <;> simp

/-- The operation in the memory of a process. -/
def HeapOp.onArena : HeapOp → Process → Option Process
  | .malloc n grant, c =>
    match Umalloc.malloc grant n c.arena with
    | none => none
    | some (none, s) => some { c with arena := s }
    | some (some ap, s) => some ⟨s, c.blocks ++ [some (ap, n)]⟩
  | .store p off bs, c => do
    let b ← c.block p
    some { c with arena := { c.arena with mem := storeBytes c.arena.mem b.1 off bs } }
  | .free p, c => do
    let b ← c.block p
    let s ← Umalloc.free b.1 c.arena
    some ⟨s, c.blocks.set p none⟩

/-- A program in the memory of a process; `none` if one of its operations is not allowed. -/
def run (ops : List HeapOp) (c : Process) : Option Process :=
  ops.foldlM (fun c op => if op.Allowed c then op.onArena c else none) c

/-- The operation on a heap.  `malloc` may return `NULL`, and then nothing changes. -/
def HeapOp.OnHeap (h h' : Heap (List UInt8)) : HeapOp → Prop
  | .malloc n _ => h' = h ∨ (h.junk h.next).length = n ∧ h' = h.malloc.2
  | .store p off bs =>
    ∃ b, h.get p = some b ∧ off + bs.length ≤ b.length ∧ h.store p (poke b off bs) = some h'
  | .free p => h.free p = some h'

/-- A program on a heap. -/
def HeapRuns : List HeapOp → Heap (List UInt8) → Heap (List UInt8) → Prop
  | [], h, h' => h' = h
  | op :: ops, h, h' => ∃ h₁, op.OnHeap h h₁ ∧ HeapRuns ops h₁ h'

/-- The process has the blocks of the heap, and in them what the heap has there. -/
structure Process.Holds (c : Process) (h : Heap (List UInt8)) : Prop where
  next : c.blocks.length = h.next
  bytes : ∀ p, h.get p = c.bytes p

/-! ### The first call -/

variable {s : Arena} {ns live : List Seg}

/-- A heap, or a process that has not set one up. -/
def Ready (lo : ℕ) (s : Arena) (ns live : List Seg) : Prop :=
  Inv lo s ns live ∨ (s.freep = none ∧ s.brk = lo ∧ 0 < lo ∧ ns = [anchor] ∧ live = [])

theorem inv_start (hf : s.freep = none) (hlo : 0 < s.brk) :
    Inv s.brk (start s).2 [anchor] [] := by
  have hs : start s =
      (base, { s with mem := Function.update s.mem base ⟨base, 0⟩, freep := some base }) := by
    unfold start
    rw [hf]
  rw [hs]
  have hmem : Function.update s.mem base ⟨base, 0⟩ base = ⟨base, 0⟩ := Function.update_self ..
  refine ⟨⟨hlo, le_rfl, rfl, List.pairwise_singleton .., ?_, ?_, List.forall_mem_nil _⟩,
    chain_cons.2 ⟨hmem, chain_nil⟩, List.forall_mem_nil _, anchor, by simp, rfl⟩
  · intro x hx _
    rw [List.mem_singleton.1 hx]
    rfl
  · intro u
    have hno : ¬ anchor.Has u := fun hu => Nat.not_lt_zero u hu.2
    show cover u ([anchor] ++ []) = if s.brk ≤ u ∧ u < s.brk then 1 else 0
    rw [List.append_nil, cover_cons, if_neg hno, if_neg (by omega)]
    rfl

theorem start_start (s : Arena) : start (start s).2 = start s := by
  unfold start
  cases h : s.freep with
  | some f => simp only [h]
  | none => rfl

theorem malloc_start (grant : Bool) (nbytes : ℕ) (s : Arena) :
    malloc grant nbytes (start s).2 = malloc grant nbytes s := by
  unfold malloc
  rw [start_start]

/-- The first statement of `malloc` sets up a heap, or finds one. -/
theorem Ready.start (h : Ready lo s ns live) :
    Inv lo (start s).2 ns live ∧ Keeps live s (start s).2 ∧ (start s).2.brk = s.brk := by
  rcases h with h | ⟨hf, rfl, hlo, rfl, rfl⟩
  · obtain ⟨f, -, hfreep⟩ := h.freep
    have hs : Umalloc.start s = (f.addr, s) := by
      unfold Umalloc.start
      rw [hfreep]
    rw [hs]
    exact ⟨h, Keeps.refl, rfl⟩
  · refine ⟨inv_start hf hlo, List.forall_mem_nil _, ?_⟩
    unfold Umalloc.start
    rw [hf]

theorem Ready.malloc {nbytes : ℕ} (h : Ready lo s ns live) (grant : Bool)
    (hmax : nbytes ≤ maxRequest) :
    ∃ r s', malloc grant nbytes s = some (r, s') ∧ Keeps live s s' ∧
      ((∃ a ns', r = some (a + 1) ∧ Inv lo s' ns' (⟨a, units nbytes⟩ :: live)) ∨
        (r = none ∧ Refused grant (units nbytes) s ∧ Inv lo s' ns live ∧
          ∀ x ∈ ns, x.size < units nbytes)) ∧
      (s'.brk = s.brk ∨
        (∀ x ∈ ns, x.size < units nbytes) ∧ s'.brk * unitSize < KERNBASE) := by
  obtain ⟨hinv, hkeep, hbrk⟩ := h.start
  obtain ⟨r, s', hm, hkeep', hcase, hbrk'⟩ := hinv.malloc grant hmax
  rw [malloc_start] at hm
  rw [hbrk] at hbrk'
  unfold Refused at hcase ⊢
  rw [hbrk] at hcase
  exact ⟨r, s', hm, hkeep.trans hkeep', hcase, hbrk'⟩

theorem Ready.inv {x : Seg} (h : Ready lo s ns live) (hx : x ∈ live) : Inv lo s ns live := by
  rcases h with h | ⟨-, -, -, -, rfl⟩
  · exact h
  · cases hx

/-! ### Writing -/

/-- Writing into a block in use, after its header, keeps the heap. -/
theorem Inv.write {x : Seg} (h : Inv lo s ns (x :: live)) (bs : List UInt8)
    (hk : k < x.size) :
    Inv lo { s with mem := write s.mem (x.addr + 1) k bs } ns (x :: live) ∧
      Keeps live s { s with mem := write s.mem (x.addr + 1) k bs } := by
  have hx : x ∈ x :: live := List.mem_cons_self
  have hin : ∀ u, x.addr + 1 ≤ u ∧ u < x.addr + 1 + k → x.Has u := by
    intro u hu
    unfold Seg.Has Seg.stop
    omega
  have hkeep : Keeps live s { s with mem := Umalloc.write s.mem (x.addr + 1) k bs } := by
    intro y hy u hu
    exact write_of_not_mem fun hc => h.layout.not_has_live hy (hin u hc) hu
  refine ⟨⟨h.layout, ?_, List.forall_mem_cons.2 ⟨?_, fun y hy => ?_⟩, h.freep⟩, hkeep⟩
  · exact h.chain.congr fun y hy => write_of_not_mem fun hc =>
      h.layout.addr_ne hy hx (hin _ hc) rfl
  · show (Umalloc.write _ _ _ _ x.addr).size = x.size
    rw [write_of_not_mem (by omega), h.sizes x hx]
  · rw [hkeep y hy _ (Seg.has_addr (h.layout.live_pos y (List.mem_cons_of_mem _ hy)))]
    exact h.sizes y (List.mem_cons_of_mem _ hy)

/-! ### The blocks of a process -/

/-- The memory of the block `b`, its header included. -/
def seg (b : ℕ × ℕ) : Seg := ⟨b.1 - 1, units b.2⟩

/-- The memory of these blocks. -/
def segs (bs : List (Option (ℕ × ℕ))) : List Seg := bs.reduceOption.map seg

variable {c c' c₁ c₂ : Process} {p q : Ptr} {b b' : ℕ × ℕ} {n off : ℕ} {op : HeapOp}
  {ops : List HeapOp}

theorem block_eq : c.block p = some b ↔ c.blocks[p]? = some (some b) := Option.join_eq_some_iff

theorem mem_reduceOption (h : c.block p = some b) : b ∈ c.blocks.reduceOption :=
  List.reduceOption_mem_iff.2 (List.mem_of_getElem? (block_eq.1 h))

theorem segs_concat (bs : List (Option (ℕ × ℕ))) (b : ℕ × ℕ) :
    segs (bs ++ [some b]) = segs bs ++ [seg b] := by
  rw [segs, List.reduceOption_append, List.map_append]
  rfl

/-- The blocks with one of them in front. -/
theorem perm_segs (h : c.block p = some b) :
    (segs c.blocks).Perm (seg b :: segs (c.blocks.set p none)) := by
  obtain ⟨hp, hb⟩ := List.getElem?_eq_some_iff.1 (block_eq.1 h)
  have hsplit : c.blocks = c.blocks.take p ++ some b :: c.blocks.drop (p + 1) := by
    rw [← hb, List.getElem_cons_drop, List.take_append_drop]
  have hset : c.blocks.set p none = c.blocks.take p ++ none :: c.blocks.drop (p + 1) :=
    List.set_eq_take_append_cons_drop.trans (if_pos hp)
  rw [hset]
  nth_rewrite 1 [hsplit]
  unfold segs
  rw [List.reduceOption_append, List.reduceOption_append, List.reduceOption_cons_of_some,
    List.reduceOption_cons_of_none, ← List.map_cons]
  exact List.perm_middle.map seg

theorem seg_mem_of_ne (h : c.block q = some b) (hq : q ≠ p) :
    seg b ∈ segs (c.blocks.set p none) := by
  have hb : (c.blocks.set p none)[q]? = some (some b) := by
    rw [List.getElem?_set_ne hq.symm]
    exact block_eq.1 h
  exact List.mem_map_of_mem (List.reduceOption_mem_iff.2 (List.mem_of_getElem? hb))

theorem contents_eq (c c' : Process) {live : List Seg} (hkeep : Keeps live c.arena c'.arena)
    (hb : seg b ∈ live) (hpos : 0 < b.1) : c'.contents b = c.contents b := by
  refine congrArg (List.take b.2) (load_congr fun u h₁ h₂ => hkeep _ hb u ?_)
  have := units_pos b.2
  unfold Seg.Has Seg.stop seg
  constructor <;> dsimp only <;> omega

theorem bytes_congr (hblock : c'.block q = c.block q)
    (hc : ∀ b, c.block q = some b → c'.contents b = c.contents b) : c'.bytes q = c.bytes q := by
  unfold Process.bytes
  rw [hblock]
  cases hb : c.block q with
  | none => rfl
  | some b => exact congrArg some (hc b hb)

theorem length_contents (c : Process) (hb : b.2 ≤ maxRequest) : (c.contents b).length = b.2 := by
  unfold Process.contents
  rw [List.length_take, length_load, units_eq hb]
  omega

section Holds

variable {h h' : Heap (List UInt8)}

theorem holds_empty (mem : ℕ → Header) (lo : ℕ) (junk : ℕ → List UInt8) :
    (Process.init mem lo).Holds (Heap.empty junk) := ⟨rfl, fun _ => rfl⟩

namespace Process.Holds

theorem get_eq (H : c.Holds h) (hb : c.block p = some b) : h.get p = some (c.contents b) := by
  rw [H.bytes, Process.bytes, hb, Option.map_some]

/-- Nothing but the free list has changed. -/
theorem same (H : c.Holds h) (hsame : c'.blocks = c.blocks)
    (hkeep : ∀ b ∈ c.blocks.reduceOption, c'.contents b = c.contents b) : c'.Holds h := by
  refine ⟨by rw [hsame, H.next], fun q => ?_⟩
  have hblock : c'.block q = c.block q := by rw [Process.block, hsame, Process.block]
  rw [H.bytes, bytes_congr hblock fun b hb => hkeep b (mem_reduceOption hb)]

/-- A new block, which holds what the heap finds in it. -/
theorem malloc (H : c.Holds h) (hnew : c'.blocks = c.blocks ++ [some b])
    (hkeep : ∀ b ∈ c.blocks.reduceOption, c'.contents b = c.contents b)
    (hjunk : h.junk h.next = c'.contents b) : c'.Holds h.malloc.2 := by
  refine ⟨?_, fun q => ?_⟩
  · rw [hnew, List.length_append, H.next]
    rfl
  · show Function.update h.get h.next (some (h.junk h.next)) q = _
    by_cases hq : q = h.next
    · have hlast : c'.block h.next = some b := by
        rw [block_eq, hnew, ← H.next, List.getElem?_concat_length]
      rw [hq, Function.update_self, hjunk, Process.bytes, hlast, Option.map_some]
    · have hblock : c'.block q = c.block q := by
        rw [← H.next] at hq
        unfold Process.block
        rw [hnew]
        rcases lt_or_gt_of_ne hq with hlt | hgt
        · rw [List.getElem?_append_left hlt]
        · have hlen : (c.blocks ++ [some b]).length ≤ q := by
            rw [List.length_append]
            exact hgt
          rw [List.getElem?_eq_none hlen, List.getElem?_eq_none hgt.le]
      rw [Function.update_of_ne hq, H.bytes,
        bytes_congr hblock fun b hb => hkeep b (mem_reduceOption hb)]

theorem store (H : c.Holds h) (hb : c.block p = some b) (hsame : c'.blocks = c.blocks)
    (hkeep : ∀ q b', q ≠ p → c.block q = some b' → c'.contents b' = c.contents b')
    (hs : h.store p (c'.contents b) = some h') : c'.Holds h' := by
  have hblock : ∀ q, c'.block q = c.block q := fun q => by
    rw [Process.block, hsame, Process.block]
  refine ⟨by rw [hsame, H.next, Heap.next_store hs], fun q => ?_⟩
  by_cases hq : q = p
  · rw [hq, Heap.get_store_self hs, Process.bytes, hblock, hb, Option.map_some]
  · rw [Heap.get_store_of_ne hs hq, H.bytes,
      bytes_congr (hblock q) fun b' hb' => hkeep q b' hq hb']

theorem free (H : c.Holds h) (hset : c'.blocks = c.blocks.set p none)
    (hkeep : ∀ q b', q ≠ p → c.block q = some b' → c'.contents b' = c.contents b')
    (hs : h.free p = some h') : c'.Holds h' := by
  refine ⟨by rw [hset, List.length_set, H.next, Heap.next_free hs], fun q => ?_⟩
  by_cases hq : q = p
  · have hgone : c'.block p = none := by
      rw [Process.block, hset, List.getElem?_set_self']
      cases c.blocks[p]? <;> rfl
    rw [hq, Heap.get_free_self hs, Process.bytes, hgone, Option.map_none]
  · have hblock : c'.block q = c.block q := by
      unfold Process.block
      rw [hset, List.getElem?_set_ne (Ne.symm hq)]
    rw [Heap.get_free_of_ne hs hq, H.bytes, bytes_congr hblock fun b' hb' => hkeep q b' hq hb']

end Process.Holds

end Holds

/-! ### The simulation -/

/-- The memory of the process is a heap from `lo` on, with the free blocks `ns` and the blocks of
the process in use. -/
structure Sim (lo : ℕ) (c : Process) (ns : List Seg) : Prop where
  ready : Ready lo c.arena ns (segs c.blocks)
  /-- No block begins at `NULL`. -/
  pos : ∀ b ∈ c.blocks.reduceOption, 0 < b.1
  size_le : ∀ b ∈ c.blocks.reduceOption, b.2 ≤ maxRequest
  limit : c.arena.brk * unitSize < KERNBASE

namespace Sim

theorem init (mem : ℕ → Header) (hlo : 0 < lo) (hlim : lo * unitSize < KERNBASE) :
    Sim lo (Process.init mem lo) [anchor] where
  ready := .inr ⟨rfl, rfl, hlo, rfl, rfl⟩
  pos := List.forall_mem_nil _
  size_le := List.forall_mem_nil _
  limit := hlim

theorem inv (S : Sim lo c ns) (hb : c.block p = some b) :
    Inv lo c.arena ns (seg b :: segs (c.blocks.set p none)) :=
  have hmem : seg b ∈ segs c.blocks := List.mem_map_of_mem (mem_reduceOption hb)
  (S.ready.inv hmem).perm (perm_segs hb)

theorem addr_add_one (S : Sim lo c ns) (hb : c.block p = some b) : (seg b).addr + 1 = b.1 :=
  Nat.succ_pred_eq_of_pos (S.pos b (mem_reduceOption hb))

theorem inside (S : Sim lo c ns) (hb : c.block p = some b) :
    lo < b.1 ∧ b.1 * unitSize + b.2 ≤ c.arena.brk * unitSize := by
  have hin := (S.inv hb).layout.inside (x := seg b) (by simp) (units_pos b.2)
  have hpos := S.pos b (mem_reduceOption hb)
  have hsize := units_eq (S.size_le b (mem_reduceOption hb))
  unfold Seg.stop seg at hin
  unfold unitSize
  dsimp only at hin
  omega

theorem malloc (S : Sim lo c ns) (grant : Bool) (hn : n ≤ maxRequest) :
    ∃ c' ns', (HeapOp.malloc n grant).onArena c = some c' ∧ Sim lo c' ns' ∧
      (∀ b ∈ c.blocks.reduceOption, c'.contents b = c.contents b) ∧
      ((∃ ap, c'.blocks = c.blocks ++ [some (ap, n)]) ∨
        c'.blocks = c.blocks ∧ Refused grant (units n) c.arena) := by
  obtain ⟨r, s', hm, hkeep, hcase, hbrk⟩ := S.ready.malloc grant hn
  have hlimit : s'.brk * unitSize < KERNBASE := by
    rcases hbrk with hbrk | ⟨-, hlt⟩
    · rw [hbrk]
      exact S.limit
    · exact hlt
  have hold : ∀ bs : List (Option (ℕ × ℕ)), ∀ b ∈ c.blocks.reduceOption,
      Process.contents ⟨s', bs⟩ b = c.contents b := fun bs b hb =>
    contents_eq c ⟨s', bs⟩ hkeep (List.mem_map_of_mem hb) (S.pos b hb)
  rcases hcase with ⟨a, ns', rfl, hinv⟩ | ⟨rfl, hr, hinv, -⟩
  · refine ⟨⟨s', c.blocks ++ [some (a + 1, n)]⟩, ns', ?_, ⟨.inl ?_, ?_, ?_, hlimit⟩, hold _,
      .inl ⟨a + 1, rfl⟩⟩
    · simp only [HeapOp.onArena, hm]
    · rw [segs_concat]
      exact hinv.perm (List.perm_append_singleton _ _).symm
    · rw [List.reduceOption_append]
      exact List.forall_mem_append.2 ⟨S.pos, List.forall_mem_singleton.2 (Nat.succ_pos a)⟩
    · rw [List.reduceOption_append]
      exact List.forall_mem_append.2 ⟨S.size_le, List.forall_mem_singleton.2 hn⟩
  · refine ⟨⟨s', c.blocks⟩, ns, ?_, ⟨.inl hinv, S.pos, S.size_le, hlimit⟩, hold _,
      .inr ⟨rfl, hr⟩⟩
    simp only [HeapOp.onArena, hm]

theorem store (S : Sim lo c ns) (hb : c.block p = some b) {bs : List UInt8}
    (hbs : off + bs.length ≤ b.2) :
    ∃ c', (HeapOp.store p off bs).onArena c = some c' ∧ Sim lo c' ns ∧ c'.blocks = c.blocks ∧
      c'.contents b = poke (c.contents b) off bs ∧
      ∀ q b', q ≠ p → c.block q = some b' → c'.contents b' = c.contents b' := by
  have hsize := units_eq (S.size_le b (mem_reduceOption hb))
  obtain ⟨hw, hkeep⟩ := (S.inv hb).write (k := (off + bs.length + 7) / 8)
    (poke (load c.arena.mem b.1 ((off + bs.length + 7) / 8)) off bs)
    (by unfold seg; dsimp only; omega)
  rw [S.addr_add_one hb] at hw hkeep
  refine ⟨{ c with arena := { c.arena with mem := storeBytes c.arena.mem b.1 off bs } }, ?_,
    ⟨.inl (hw.perm (perm_segs hb).symm), S.pos, S.size_le, S.limit⟩, rfl, ?_, ?_⟩
  · simp only [HeapOp.onArena, hb]
    rfl
  · show (load (storeBytes _ _ _ _) _ _).take b.2 = _
    rw [load_storeBytes _ _ (by omega), take_poke hbs, Process.contents]
    rw [length_load]
    omega
  · intro q b' hq hb'
    exact contents_eq c _ hkeep (seg_mem_of_ne hb' hq) (S.pos b' (mem_reduceOption hb'))

theorem free (S : Sim lo c ns) (hb : c.block p = some b) :
    ∃ c' ns', (HeapOp.free p).onArena c = some c' ∧ Sim lo c' ns' ∧
      c'.blocks = c.blocks.set p none ∧
      (∀ q b', q ≠ p → c.block q = some b' → c'.contents b' = c.contents b') ∧
      ∀ y ∈ seg b :: ns, ∃ z ∈ ns', y.size ≤ z.size := by
  obtain ⟨s', ns', hfree, hinv, hkeep, hbrk, hjoin⟩ := (S.inv hb).free
  rw [S.addr_add_one hb] at hfree
  have hsub : ∀ b' ∈ (c.blocks.set p none).reduceOption, b' ∈ c.blocks.reduceOption := by
    intro b' hb'
    rw [List.reduceOption_mem_iff] at hb' ⊢
    exact (List.mem_or_eq_of_mem_set hb').resolve_right (Option.some_ne_none b')
  refine ⟨⟨s', c.blocks.set p none⟩, ns', ?_, ⟨.inl hinv, fun b' hb' => S.pos b' (hsub b' hb'),
    fun b' hb' => S.size_le b' (hsub b' hb'), ?_⟩, rfl, ?_, hjoin⟩
  · simp only [HeapOp.onArena, hb]
    show (Umalloc.free b.1 c.arena >>= _) = _
    rw [hfree]
    rfl
  · rw [hbrk]
    exact S.limit
  · intro q b' hq hb'
    exact contents_eq c _ hkeep (seg_mem_of_ne hb' hq) (S.pos b' (mem_reduceOption hb'))

/-- One operation.  On the heap it needs to know what is in the memory that `malloc` hands out. -/
theorem onHeap (S : Sim lo c ns) (ho : op.Allowed c) :
    ∃ c' ns' b₀, op.onArena c = some c' ∧ Sim lo c' ns' ∧ c.blocks.length ≤ c'.blocks.length ∧
      (∀ n grant, op = .malloc n grant → c'.blocks = c.blocks →
        Refused grant (units n) c.arena) ∧
      ∀ h, c.Holds h → (c.blocks.length < c'.blocks.length → h.junk h.next = b₀) →
        ∃ h', op.OnHeap h h' ∧ c'.Holds h' ∧ h'.junk = h.junk := by
  cases op with
  | malloc n grant =>
    obtain ⟨c', ns', hc, S', hkeep, ⟨ap, hnew⟩ | ⟨hsame, hr⟩⟩ := S.malloc grant ho
    · have hlen : c'.blocks.length = c.blocks.length + 1 := by
        rw [hnew, List.length_append]
        rfl
      refine ⟨c', ns', c'.contents (ap, n), hc, S', hlen ▸ Nat.le_succ _, fun _ _ _ hc' => ?_,
        fun h H hj => ?_⟩
      · rw [hc'] at hlen
        exact absurd hlen (Nat.succ_ne_self _).symm
      · have hjunk := hj (hlen ▸ Nat.lt_succ_self _)
        have hsize : (c'.contents (ap, n)).length = n := length_contents c' ho
        exact ⟨h.malloc.2, .inr ⟨hjunk ▸ hsize, rfl⟩, H.malloc hnew hkeep hjunk, rfl⟩
    · refine ⟨c', ns', [], hc, S', hsame ▸ le_rfl, fun n' g' hop _ => ?_, fun h H _ => ?_⟩
      · cases hop
        exact hr
      · exact ⟨h, .inl rfl, H.same hsame hkeep, rfl⟩
  | store p off bs =>
    obtain ⟨b, hb, hbs⟩ := allowed_store.1 ho
    obtain ⟨c', hc, S', hsame, hself, hkeep⟩ := S.store hb hbs
    refine ⟨c', ns, [], hc, S', hsame ▸ le_rfl, fun _ _ hop => (by cases hop), fun h H _ => ?_⟩
    obtain ⟨h', hs⟩ := Heap.exists_store (H.get_eq hb) (c'.contents b)
    have hsize := length_contents c (S.size_le b (mem_reduceOption hb))
    exact ⟨h', ⟨_, H.get_eq hb, hsize ▸ hbs, hself ▸ hs⟩, H.store hb hsame hkeep hs,
      Heap.junk_store hs⟩
  | free p =>
    obtain ⟨b, hb⟩ := Option.isSome_iff_exists.1 ho
    obtain ⟨c', ns', hc, S', hset, hkeep, -⟩ := S.free hb
    have hlen : c.blocks.length ≤ c'.blocks.length := by rw [hset, List.length_set]
    refine ⟨c', ns', [], hc, S', hlen, fun _ _ hop => (by cases hop), fun h H _ => ?_⟩
    obtain ⟨h', hs⟩ := Heap.exists_free (H.get_eq hb)
    exact ⟨h', hs, H.free hset hkeep hs, Heap.junk_free hs⟩

end Sim

/-! ### Whole programs -/

theorem exists_of_any {α : Type*} {o : Option α} {P : α → Prop} [DecidablePred P]
    (h : o.any (fun a => decide (P a)) = true) : ∃ a, o = some a ∧ P a := by
  cases o with
  | none => cases h
  | some a => exact ⟨a, rfl, of_decide_eq_true h⟩

theorem run_cons :
    run (op :: ops) c = (if op.Allowed c then op.onArena c else none) >>= run ops :=
  List.foldlM_cons

theorem run_cons_eq_some :
    run (op :: ops) c = some c₂ ↔
      op.Allowed c ∧ ∃ c₁, op.onArena c = some c₁ ∧ run ops c₁ = some c₂ := by
  rw [run_cons]
  by_cases ho : op.Allowed c
  · rw [if_pos ho, Option.bind_eq_bind, Option.bind_eq_some_iff]
    exact (and_iff_right ho).symm
  · rw [if_neg ho]
    exact ⟨fun h => (by cases h), fun h => absurd h.1 ho⟩

theorem Sim.run (S : Sim lo c ns) (hr : run ops c = some c₂) : ∃ ns₂, Sim lo c₂ ns₂ := by
  induction ops generalizing c ns with
  | nil =>
    cases hr
    exact ⟨ns, S⟩
  | cons op ops ih =>
    obtain ⟨ho, c₁, hc, hr⟩ := run_cons_eq_some.1 hr
    obtain ⟨c', ns', -, hc', S', -⟩ := S.onHeap ho
    obtain rfl : c' = c₁ := Option.some_inj.1 (hc'.symm.trans hc)
    exact ih S' hr

/-- At each step of a program the memory is that of a heap; what the heap finds in its blocks is
the same for all steps. -/
theorem Sim.heapRuns (S : Sim lo c ns) (hr : Umalloc.run ops c = some c₂) :
    ∃ junk : ℕ → List UInt8, ∀ h, c.Holds h → (∀ q ≥ h.next, h.junk q = junk q) → ∀ k, ∃ c' h',
      Umalloc.run (ops.take k) c = some c' ∧ HeapRuns (ops.take k) h h' ∧ c'.Holds h' := by
  induction ops generalizing c ns with
  | nil =>
    refine ⟨fun _ => [], fun h H _ k => ⟨c, h, ?_, ?_, H⟩⟩
    · rw [List.take_nil]
      rfl
    · rw [List.take_nil]
      rfl
  | cons op ops ih =>
    obtain ⟨ho, c₁, hc, hr⟩ := run_cons_eq_some.1 hr
    obtain ⟨c', ns', b₀, hc', S', hlen, -, hheap⟩ := S.onHeap ho
    obtain rfl : c' = c₁ := Option.some_inj.1 (hc'.symm.trans hc)
    obtain ⟨junk, hall⟩ := ih S' hr
    -- the blocks that this step hands out hold `b₀`
    refine ⟨fun q => if q < c'.blocks.length then b₀ else junk q, fun h H hj k => ?_⟩
    cases k with
    | zero => exact ⟨c, h, rfl, rfl, H⟩
    | succ k =>
      obtain ⟨h₁, hop, H₁, hjunk⟩ := hheap h H fun hlt =>
        (hj _ le_rfl).trans (if_pos (H.next ▸ hlt))
      have hagree : ∀ q ≥ h₁.next, h₁.junk q = junk q := by
        intro q hq
        rw [← H₁.next] at hq
        rw [hjunk, hj q (H.next ▸ hlen.trans hq)]
        exact if_neg (not_lt.2 hq)
      obtain ⟨c₃, h₃, hc₃, hruns, H₃⟩ := hall h₁ H₁ hagree k
      refine ⟨c₃, h₃, ?_, ⟨h₁, hop, hruns⟩, H₃⟩
      exact run_cons_eq_some.2 ⟨ho, c', hc, hc₃⟩

/-- Without a call of `malloc` free blocks only grow. -/
theorem Sim.run_of_no_malloc (S : Sim lo c ns) (hr : Umalloc.run ops c = some c₂)
    (hops : ∀ n grant, .malloc n grant ∉ ops) :
    ∃ ns₂, Sim lo c₂ ns₂ ∧ ∀ y ∈ ns, ∃ z ∈ ns₂, y.size ≤ z.size := by
  induction ops generalizing c ns with
  | nil =>
    cases hr
    exact ⟨ns, S, fun y hy => ⟨y, hy, le_rfl⟩⟩
  | cons op ops ih =>
    obtain ⟨ho, c₁, hc, hr⟩ := run_cons_eq_some.1 hr
    have hops' : ∀ n grant, .malloc n grant ∉ ops := fun n grant h =>
      hops n grant (List.mem_cons_of_mem _ h)
    cases op with
    | malloc n grant => exact absurd List.mem_cons_self (hops n grant)
    | store p off bs =>
      obtain ⟨b, hb, hbs⟩ := allowed_store.1 ho
      obtain ⟨c', hc', S', -⟩ := S.store hb hbs
      obtain rfl : c' = c₁ := Option.some_inj.1 (hc'.symm.trans hc)
      exact ih S' hr hops'
    | free p =>
      obtain ⟨b, hb⟩ := Option.isSome_iff_exists.1 ho
      obtain ⟨c', ns', hc', S', -, -, hjoin⟩ := S.free hb
      obtain rfl : c' = c₁ := Option.some_inj.1 (hc'.symm.trans hc)
      obtain ⟨ns₂, S₂, hgrow⟩ := ih S' hr hops'
      refine ⟨ns₂, S₂, fun y hy => ?_⟩
      obtain ⟨z, hz, hle⟩ := hjoin y (List.mem_cons_of_mem _ hy)
      obtain ⟨w, hw, hle'⟩ := hgrow z hz
      exact ⟨w, hw, hle.trans hle'⟩

/-- **`umalloc.c` is a heap of blocks.**  A program asks for blocks of any sizes up to `maxRequest`,
uses only blocks that it has and stays inside of them.

After each of its steps every block holds what it holds on a heap, and that heap finds the same
memory in its blocks at all steps.  The blocks lie in the memory that the process has, which ends
below `KERNBASE`.  Whatever is allowed next returns, and `malloc` returns `NULL` only if the kernel
gives no memory. -/
theorem exists_heap_of_run {mem : ℕ → Header} (hlo : 0 < lo) (hlim : lo * unitSize < KERNBASE)
    (hr : run ops (Process.init mem lo) = some c) :
    (∃ junk : ℕ → List UInt8, ∀ k, ∃ c h, run (ops.take k) (Process.init mem lo) = some c ∧
      HeapRuns (ops.take k) (Heap.empty junk) h ∧ c.Holds h) ∧
    (∀ p b, c.block p = some b → lo < b.1 ∧ b.1 * unitSize + b.2 ≤ c.arena.brk * unitSize) ∧
    c.arena.brk * unitSize < KERNBASE ∧
    ∀ op : HeapOp, op.Allowed c → ∃ c', op.onArena c = some c' ∧
      ∀ n grant, op = .malloc n grant → c'.blocks = c.blocks →
        grant = false ∨ KERNBASE ≤ (c.arena.brk + coreUnits (units n)) * unitSize := by
  have S₀ := Sim.init mem hlo hlim
  obtain ⟨ns, S⟩ := S₀.run hr
  refine ⟨?_, fun p b => S.inside, S.limit, fun op ho => ?_⟩
  · obtain ⟨junk, hall⟩ := S₀.heapRuns hr
    exact ⟨junk, hall _ (holds_empty mem lo junk) fun q _ => rfl⟩
  · obtain ⟨c', ns', b₀, hc, -, -, hrefused, -⟩ := S.onHeap ho
    exact ⟨c', hc, hrefused⟩

/-- A program with blocks of five sizes.  It writes into the second one, releases the first one,
gets a smaller one and a larger one, and is refused a last one. -/
def mixedSizes : List HeapOp :=
  [.malloc 100 true, .malloc 5000 true, .malloc 0 false, .store 1 13 [1, 2, 3], .free 0,
    .malloc 40 false, .malloc 40000 true, .malloc 100000 false]

theorem exists_heap_of_run_mixed_sizes :
    ∃ c, run mixedSizes (Process.init (fun _ => ⟨0, 0⟩) 1) = some c ∧ c.blocks.length = 5 ∧
      ∃ junk : ℕ → List UInt8, ∀ k, ∃ c h,
        run (mixedSizes.take k) (Process.init (fun _ => ⟨0, 0⟩) 1) = some c ∧
          HeapRuns (mixedSizes.take k) (Heap.empty junk) h ∧ c.Holds h := by
  obtain ⟨c, hc, hlen⟩ : ∃ c, run mixedSizes (Process.init (fun _ => ⟨0, 0⟩) 1) = some c ∧
      c.blocks.length = 5 := exists_of_any (by decide +kernel)
  exact ⟨c, hc, hlen, (exists_heap_of_run Nat.one_pos (by decide) hc).1⟩

/-- **All memory comes back as one block.**  When a program has released all its blocks, the ring
is `base` and a single free block, which is all the memory the process ever got. -/
theorem ring_of_all_freed {mem : ℕ → Header} (hlo : 0 < lo) (hlim : lo * unitSize < KERNBASE)
    (hr : run ops (Process.init mem lo) = some c) (hfree : ∀ p, c.block p = none)
    (hgrown : lo < c.arena.brk) :
    c.arena.mem base = ⟨lo, 0⟩ ∧ c.arena.mem lo = ⟨base, c.arena.brk - lo⟩ := by
  obtain ⟨ns, S⟩ := (Sim.init mem hlo hlim).run hr
  have hnone : segs c.blocks = [] := by
    refine List.map_eq_nil_iff.2 (List.eq_nil_iff_forall_not_mem.2 fun b hb => ?_)
    obtain ⟨p, hp⟩ := List.mem_iff_getElem?.1 (List.reduceOption_mem_iff.1 hb)
    have := block_eq.2 hp
    rw [hfree] at this
    cases this
  have hinv : Inv lo c.arena ns [] := by
    rcases S.ready with h | ⟨-, hbrk, -⟩
    · rwa [hnone] at h
    · exact absurd hbrk hgrown.ne'
  have hns := hinv.layout.eq_of_live_nil
  rw [if_neg hgrown.ne] at hns
  have hchain := hinv.chain
  rw [hns] at hchain
  obtain ⟨hbase, hrest⟩ := chain_cons.1 hchain
  exact ⟨hbase, (chain_cons.1 hrest).1⟩

/-- Four blocks of different sizes, which are not released in the order in which they came. -/
theorem ring_of_all_freed_mixed_sizes :
    ∃ c, run [.malloc 100 true, .malloc 5000 true, .malloc 0 true, .malloc 40000 true, .free 2,
        .free 0, .free 3, .free 1] (Process.init (fun _ => ⟨0, 0⟩) 1) = some c ∧
      c.arena.brk = 9098 ∧ c.arena.mem base = ⟨1, 0⟩ ∧ c.arena.mem 1 = ⟨base, 9097⟩ := by
  obtain ⟨c, hc, hfree, hbrk⟩ : ∃ c, run [.malloc 100 true, .malloc 5000 true, .malloc 0 true,
      .malloc 40000 true, .free 2, .free 0, .free 3, .free 1]
        (Process.init (fun _ => ⟨0, 0⟩) 1) = some c ∧
      c.blocks = List.replicate 4 none ∧ c.arena.brk = 9098 := exists_of_any (by decide +kernel)
  have hnone : ∀ p, c.block p = none := by
    intro p
    rw [Process.block, hfree, List.getElem?_replicate]
    split <;> rfl
  have hring := ring_of_all_freed Nat.one_pos (by decide) hc hnone (by rw [hbrk]; decide)
  rw [hbrk] at hring
  exact ⟨c, hc, hbrk, hring⟩

/-- **Released memory is used again.**  Once a block has been released, and as long as `malloc` is
not called, a request that is not larger gets memory even if the kernel has no more to give, and
the break is not moved. -/
theorem malloc_after_free {mem : ℕ → Header} {m : ℕ} (hlo : 0 < lo)
    (hlim : lo * unitSize < KERNBASE) (hr : run ops (Process.init mem lo) = some c₁)
    (hp : c₁.block p = some b) {ops₂ : List HeapOp} (hr₂ : run (.free p :: ops₂) c₁ = some c₂)
    (hops : ∀ n grant, .malloc n grant ∉ ops₂) (hm : m ≤ b.2) :
    ∃ ap s, Umalloc.malloc false m c₂.arena = some (some ap, s) ∧ s.brk = c₂.arena.brk := by
  obtain ⟨ns, S⟩ := (Sim.init mem hlo hlim).run hr
  obtain ⟨-, c', hc', hr'⟩ := run_cons_eq_some.1 hr₂
  obtain ⟨c'', ns', hc'', S', -, -, hjoin⟩ := S.free hp
  obtain rfl : c'' = c' := Option.some_inj.1 (hc''.symm.trans hc')
  obtain ⟨ns₂, S₂, hgrow⟩ := S'.run_of_no_malloc hr' hops
  -- the released block is still part of a free block
  obtain ⟨z, hz, hle⟩ := hjoin _ List.mem_cons_self
  obtain ⟨w, hw, hle'⟩ := hgrow z hz
  have hmax := S.size_le b (mem_reduceOption hp)
  have hfit : ¬ w.size < units m := by
    have hunits : units m ≤ units b.2 := by
      rw [units_eq hmax, units_eq (hm.trans hmax)]
      omega
    exact not_lt.2 (hunits.trans (hle.trans hle'))
  obtain ⟨r, s, hmalloc, -, hcase, hbrk⟩ := S₂.ready.malloc false (hm.trans hmax)
  rcases hcase with ⟨a, -, rfl, -⟩ | ⟨-, -, -, hsmall⟩
  · refine ⟨a + 1, s, hmalloc, ?_⟩
    rcases hbrk with hbrk | ⟨hsmall, -⟩
    · exact hbrk
    · exact absurd (hsmall w hw) hfit
  · exact absurd (hsmall w hw) hfit

/-- After the second of three blocks has been released, then the first one, a request that fits into
the second one is met. -/
theorem malloc_after_free_mixed_sizes :
    ∃ c₁ c₂, run [.malloc 100 true, .malloc 5000 true, .malloc 30000 true]
        (Process.init (fun _ => ⟨0, 0⟩) 1) = some c₁ ∧
      run [.free 1, .store 0 8 [1, 2], .free 0] c₁ = some c₂ ∧
      ∃ ap s, Umalloc.malloc false 4999 c₂.arena = some (some ap, s) ∧
        s.brk = c₂.arena.brk := by
  obtain ⟨c₁, hc₁, hblock, hsome⟩ : ∃ c₁, run [.malloc 100 true, .malloc 5000 true,
      .malloc 30000 true] (Process.init (fun _ => ⟨0, 0⟩) 1) = some c₁ ∧
      (c₁.block 1).any (fun b => decide (4999 ≤ b.2)) = true ∧
      (run [.free 1, .store 0 8 [1, 2], .free 0] c₁).isSome = true :=
    exists_of_any (by decide +kernel)
  obtain ⟨b, hb, hm⟩ := exists_of_any hblock
  obtain ⟨c₂, hc₂⟩ := Option.isSome_iff_exists.1 hsome
  exact ⟨c₁, c₂, hc₁, hc₂, malloc_after_free Nat.one_pos (by decide) hc₁ hb hc₂ (by simp) hm⟩

end Umalloc

end Xv6Editor
