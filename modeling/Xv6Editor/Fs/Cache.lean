import Mathlib.Data.Finset.Card
import Mathlib.Data.Finset.Dedup
import Mathlib.Data.List.Nodup
import Xv6Editor.CMem.Ensures
import Xv6Editor.CMem.Words

/-!
# The buffer cache

`bio.c`, over the disk driver of `ide.c`.  The cache is the list of its `NBUF` buffers, the most
recently used one first.  There is one disk, the root device, and a buffer that was never used has
no sector.  A buffer is named by its sector: there is never more than one for it.

The model is about one process at a time.  If a buffer is busy already, it is this process that
holds it, so that it sleeps for ever.  A sector is written at once or not at all.  `power` says how
many sectors can be written before the power fails; without a number it does not fail.

* `Holds m view held dirty` : the cache and the disk together show the blocks `view`; the buffers
  of `held` are busy, those of `dirty` hold what the disk does not have.
* `Holds.bread`, `Holds.bwrite`, `Holds.brelse` : what the operations do to it.
* `Holds.bread_full` : `bread` panics exactly if there is no buffer that is neither busy nor dirty.
-/

namespace Xv6Editor

namespace Fs

/-- The contents of a sector, `BSIZE` bytes. -/
abbrev Sector := Block 512

/-- The contents of all sectors. -/
abbrev Blocks := ℕ → Sector

/-- The number of buffers. -/
def NBUF : ℕ := 10

/-- The calls of `panic`. -/
inductive Panic
  /-- `bget: no buffers`. -/
  | noBuffers
  /-- `bwrite`. -/
  | bwrite
  /-- `brelse`. -/
  | brelse
  /-- `iderw: buf not busy`. -/
  | notBusy
  /-- `iderw: nothing to do`. -/
  | nothingToDo
  /-- `too big a transaction`. -/
  | tooBig
  /-- `write outside of trans`. -/
  | outsideTrans
  /-- `balloc: out of blocks`. -/
  | outOfBlocks
  /-- `freeing free block`. -/
  | freeingFree
  /-- `bmap: out of range`. -/
  | outOfRange
  /-- `short filewrite`. -/
  | shortWrite
  /-- `ilock: no type`. -/
  | noType
  /-- `ialloc: no inodes`. -/
  | noInodes
  /-- `iget: no inodes`. -/
  | noEntries
  deriving DecidableEq

/-- Why the kernel does not go on. -/
inductive Stop
  | panic (p : Panic)
  /-- The process waits for a buffer that it holds itself. -/
  | asleep
  /-- An access outside of an array, or to a buffer that the process does not hold. -/
  | fault
  /-- The power failed, with this on the disk. -/
  | crash (disk : Blocks)

/-- `struct buf`. -/
structure Buf where
  /-- The sector, unless the buffer was never used. -/
  sector : Option ℕ
  /-- `B_BUSY`. -/
  busy : Bool
  /-- `B_VALID`. -/
  valid : Bool
  /-- `B_DIRTY`. -/
  dirty : Bool
  /-- The bytes. -/
  data : Sector

/-- A buffer as `binit` leaves it. -/
def Buf.blank : Buf := ⟨none, false, false, false, Block.zero 512⟩

/-- `struct log`, with the first `lh.n` entries of `lh.sector`. -/
structure Log where
  start : ℕ
  size : ℕ
  busy : Bool
  lh : List ℕ

/-- The disk and what the kernel has in memory. -/
structure Machine where
  disk : Blocks
  /-- The number of sectors that can still be written, if the power fails then. -/
  power : Option ℕ
  /-- The buffers, the most recently used one first. -/
  cache : List Buf
  log : Log

/-! ### Operations -/

/-- The buffer of the sector `s`. -/
def lookup (s : ℕ) (c : List Buf) : Option Buf := c.find? fun b => b.sector = some s

/-- Change the buffer of the sector `s`. -/
def modify (s : ℕ) (f : Buf → Buf) (c : List Buf) : List Buf :=
  c.map fun b => if b.sector = some s then f b else b

/-- The second loop of `bget`: the last buffer in the list that is neither busy nor dirty becomes
the one of `s`. -/
def recycle (s : ℕ) : List Buf → Option (List Buf)
  | [] => none
  | b :: c =>
    match recycle s c with
    | some c' => some (b :: c')
    | none =>
      if b.busy || b.dirty then none
      else some ({ b with sector := some s, busy := true, valid := false, dirty := false } :: c)

/-- `bget(dev, s)`. -/
def bget (s : ℕ) (m : Machine) : Except Stop Machine :=
  match lookup s m.cache with
  | some b =>
    if b.busy then .error .asleep
    else .ok { m with cache := modify s (fun b => { b with busy := true }) m.cache }
  | none =>
    match recycle s m.cache with
    | some c => .ok { m with cache := c }
    | none => .error (.panic .noBuffers)

/-- `iderw(b)` for the buffer `b` of the sector `s`: write it if it is dirty, else read it. -/
def iderw (s : ℕ) (b : Buf) (m : Machine) : Except Stop Machine :=
  if !b.busy then .error (.panic .notBusy)
  else if b.valid && !b.dirty then .error (.panic .nothingToDo)
  else if b.dirty then
    match m.power with
    | some 0 => .error (.crash m.disk)
    | power => .ok
      { m with
        disk := Function.update m.disk s b.data
        power := power.map (· - 1)
        cache := modify s (fun _ => { b with valid := true, dirty := false }) m.cache }
  else .ok
    { m with cache := modify s (fun _ => { b with valid := true, data := m.disk s }) m.cache }

/-- `bread(dev, s)`; the contents of the buffer. -/
def bread (s : ℕ) (m : Machine) : Except Stop (Sector × Machine) := do
  let m ← bget s m
  match lookup s m.cache with
  | none => .error .fault
  | some b =>
    if b.valid then .ok (b.data, m)
    else
      let m ← iderw s b m
      .ok (((lookup s m.cache).getD b).data, m)

/-- `bwrite(b)`, when the caller has put `data` into `b->data`. -/
def bwrite (s : ℕ) (data : Sector) (m : Machine) : Except Stop Machine :=
  match lookup s m.cache with
  | none => .error .fault
  | some b =>
    if !b.busy then .error (.panic .bwrite) else iderw s { b with data := data, dirty := true } m

/-- `brelse(b)`: the buffer becomes the most recently used one. -/
def brelse (s : ℕ) (m : Machine) : Except Stop Machine :=
  match lookup s m.cache with
  | none => .error .fault
  | some b =>
    if !b.busy then .error (.panic .brelse)
    else .ok { m with cache :=
      { b with busy := false } :: m.cache.filter fun b => b.sector ≠ some s }

/-! ### The invariant -/

/-- The sectors that are in the cache. -/
def sectors (c : List Buf) : List ℕ := c.filterMap Buf.sector

/-- The cache and the disk show the blocks `view`; the buffers of `held` are busy, and those of
`dirty` are not on the disk. -/
structure Holds (m : Machine) (view : Blocks) (held dirty : Finset ℕ) : Prop where
  length : m.cache.length = NBUF
  nodup : (sectors m.cache).Nodup
  blank : ∀ b ∈ m.cache, b.sector = none → b.busy = false ∧ b.dirty = false
  flags : ∀ b ∈ m.cache, ∀ s, b.sector = some s → b.valid = true ∧ b.data = view s ∧
    (b.busy = true ↔ s ∈ held) ∧ (b.dirty = true ↔ s ∈ dirty)
  cached : ∀ s, s ∈ held ∨ s ∈ dirty → s ∈ sectors m.cache
  clean : ∀ s, s ∉ dirty → view s = m.disk s

variable {m m' : Machine} {view view' disk' : Blocks} {held held' dirty dirty' : Finset ℕ}
  {s x : ℕ} {b : Buf} {c c' : List Buf} {f : Buf → Buf} {data : Sector}

theorem mem_sectors : s ∈ sectors c ↔ ∃ b ∈ c, b.sector = some s := List.mem_filterMap

/-! ### Buffers in the list -/

theorem eq_of_sector (hn : (sectors c).Nodup) {b' : Buf} (hb : b ∈ c) (hb' : b' ∈ c)
    (hs : b.sector = some s) (hs' : b'.sector = some s) : b' = b := by
  induction c with
  | nil => cases hb
  | cons a c ih =>
    cases ha : a.sector with
    | none =>
      rw [sectors, List.filterMap_cons_none ha] at hn
      rcases List.mem_cons.1 hb with rfl | hm
      · cases ha.symm.trans hs
      rcases List.mem_cons.1 hb' with rfl | hm'
      · cases ha.symm.trans hs'
      exact ih hn hm hm'
    | some y =>
      rw [sectors, List.filterMap_cons_some ha, List.nodup_cons] at hn
      have hmem : ∀ b ∈ c, b.sector = some s → y ≠ s := by
        rintro b hb hs rfl
        exact hn.1 (mem_sectors.2 ⟨b, hb, hs⟩)
      rcases List.mem_cons.1 hb with rfl | hm
      · rcases List.mem_cons.1 hb' with rfl | hm'
        · rfl
        · exact absurd (Option.some.inj (ha.symm.trans hs)) (hmem b' hm' hs')
      · rcases List.mem_cons.1 hb' with rfl | hm'
        · exact absurd (Option.some.inj (ha.symm.trans hs')) (hmem b hm hs)
        · exact ih hn.2 hm hm'

theorem lookup_eq_some (hn : (sectors c).Nodup) (hb : b ∈ c) (hs : b.sector = some s) :
    lookup s c = some b := by
  cases h : lookup s c with
  | none =>
    have := List.find?_eq_none.1 h b hb
    simp [hs] at this
  | some b' =>
    have hmem := List.mem_of_find?_eq_some h
    have hsec : b'.sector = some s := by simpa using List.find?_some h
    rw [eq_of_sector hn hb hmem hs hsec]

theorem lookup_eq_none : lookup s c = none ↔ s ∉ sectors c := by
  rw [lookup, List.find?_eq_none, mem_sectors]
  simp

theorem lookup_spec (h : lookup s c = some b) : b ∈ c ∧ b.sector = some s :=
  ⟨List.mem_of_find?_eq_some h, by simpa using List.find?_some h⟩

theorem sectors_modify (hf : ∀ b ∈ c, b.sector = some s → (f b).sector = some s) :
    sectors (modify s f c) = sectors c := by
  rw [sectors, sectors, modify, List.filterMap_map]
  refine List.filterMap_congr fun b hb => ?_
  rw [Function.comp]
  split_ifs with h
  · rw [hf b hb h, h]
  · rfl

theorem modify_of_notMem (h : s ∉ sectors c) (f : Buf → Buf) : modify s f c = c := by
  have hid : ∀ b ∈ c, (if b.sector = some s then f b else b) = b := by
    intro b hb
    exact if_neg fun hs => h (mem_sectors.2 ⟨b, hb, hs⟩)
  rw [modify, List.map_congr_left hid, List.map_id']

theorem notMem_sectors_middle {pre post : List Buf} (h : s ∉ sectors (pre ++ b :: post)) :
    s ∉ sectors pre ∧ s ∉ sectors post := by
  rw [sectors, List.filterMap_append, List.mem_append, not_or, List.filterMap_cons] at h
  refine ⟨h.1, fun hp => h.2 ?_⟩
  cases b.sector with
  | none => exact hp
  | some x => exact List.mem_cons_of_mem _ hp

theorem lookup_middle {pre post : List Buf} (hpre : s ∉ sectors pre) (hb : b.sector = some s) :
    lookup s (pre ++ b :: post) = some b := by
  have hnone : lookup s pre = none := lookup_eq_none.2 hpre
  rw [lookup] at hnone ⊢
  rw [List.find?_append, hnone, Option.none_or, List.find?_cons_of_pos]
  simpa using hb

theorem modify_middle {pre post : List Buf} (hpre : s ∉ sectors pre) (hpost : s ∉ sectors post)
    (hb : b.sector = some s) (f : Buf → Buf) :
    modify s f (pre ++ b :: post) = pre ++ f b :: post := by
  have hpre := modify_of_notMem hpre f
  have hpost := modify_of_notMem hpost f
  rw [modify] at hpre hpost ⊢
  rw [List.map_append, List.map_cons, hpre, hpost, if_pos hb]

theorem recycle_eq_some (h : recycle s c = some c') :
    ∃ pre b post, c = pre ++ b :: post ∧ b.busy = false ∧ b.dirty = false ∧
      c' = pre ++ { b with sector := some s, busy := true, valid := false, dirty := false } ::
        post := by
  induction c generalizing c' with
  | nil => cases h
  | cons a c ih =>
    rw [recycle] at h
    cases hr : recycle s c with
    | some c₁ =>
      rw [hr] at h
      cases h
      obtain ⟨pre, b, post, rfl, hb, hd, rfl⟩ := ih hr
      exact ⟨a :: pre, b, post, rfl, hb, hd, rfl⟩
    | none =>
      rw [hr] at h
      simp only at h
      split_ifs at h with hfree
      cases h
      rw [Bool.or_eq_true, not_or, Bool.not_eq_true, Bool.not_eq_true] at hfree
      exact ⟨[], a, c, rfl, hfree.1, hfree.2, rfl⟩

theorem recycle_eq_none (h : recycle s c = none) : ∀ b ∈ c, b.busy = true ∨ b.dirty = true := by
  induction c with
  | nil => exact List.forall_mem_nil _
  | cons a c ih =>
    rw [recycle] at h
    cases hr : recycle s c with
    | some c₁ =>
      rw [hr] at h
      cases h
    | none =>
      rw [hr] at h
      simp only at h
      split_ifs at h with hfree
      rw [Bool.or_eq_true] at hfree
      exact List.forall_mem_cons.2 ⟨hfree, ih hr⟩

namespace Holds

/-! ### Changing one buffer -/

theorem exists_buf (H : Holds m view held dirty) (h : s ∈ held ∨ s ∈ dirty) :
    ∃ b ∈ m.cache, b.sector = some s ∧ lookup s m.cache = some b := by
  obtain ⟨b, hb, hs⟩ := mem_sectors.1 (H.cached s h)
  exact ⟨b, hb, hs, lookup_eq_some H.nodup hb hs⟩

/-- Only the buffer of `s` changes, and what is known of `s`. -/
theorem modify (H : Holds m view held dirty) (hc : s ∈ sectors m.cache)
    (hf : ∀ b ∈ m.cache, b.sector = some s → (f b).sector = some s ∧ (f b).valid = true ∧
      (f b).data = view' s ∧ ((f b).busy = true ↔ s ∈ held') ∧ ((f b).dirty = true ↔ s ∈ dirty'))
    (hview : ∀ x, x ≠ s → view' x = view x) (hheld : ∀ x, x ≠ s → (x ∈ held' ↔ x ∈ held))
    (hdirty : ∀ x, x ≠ s → (x ∈ dirty' ↔ x ∈ dirty)) (hcache : m'.cache = Fs.modify s f m.cache)
    (hclean : ∀ x, x ∉ dirty' → view' x = m'.disk x) : Holds m' view' held' dirty' := by
  have hsec : sectors m'.cache = sectors m.cache := by
    rw [hcache]
    exact sectors_modify fun b hb hs => (hf b hb hs).1
  have hmem : ∀ b ∈ m'.cache, (∃ a ∈ m.cache, a.sector = some s ∧ b = f a) ∨
      b ∈ m.cache ∧ b.sector ≠ some s := by
    intro b hb
    rw [hcache] at hb
    obtain ⟨a, ha, rfl⟩ := List.mem_map.1 hb
    split_ifs with h
    · exact .inl ⟨a, ha, h, rfl⟩
    · exact .inr ⟨ha, h⟩
  refine ⟨?_, hsec ▸ H.nodup, fun b hb hn => ?_, fun b hb x hx => ?_, fun x hx => ?_, hclean⟩
  · rw [hcache, Fs.modify, List.length_map, H.length]
  · obtain ⟨a, ha, hs, rfl⟩ | ⟨hb, -⟩ := hmem b hb
    · rw [(hf a ha hs).1] at hn
      cases hn
    · exact H.blank b hb hn
  · obtain ⟨a, ha, hs, rfl⟩ | ⟨hb, hne⟩ := hmem b hb
    · obtain ⟨hsf, hrest⟩ := hf a ha hs
      cases hsf.symm.trans hx
      exact hrest
    · have hxs : x ≠ s := by
        rintro rfl
        exact hne hx
      rw [hview x hxs, hheld x hxs, hdirty x hxs]
      exact H.flags b hb x hx
  · rw [hsec]
    by_cases hxs : x = s
    · exact hxs ▸ hc
    · rw [hheld x hxs, hdirty x hxs] at hx
      exact H.cached x hx

/-! ### Reading -/

theorem card_le_of_cached (H : Holds m view held dirty) (hs : s ∈ sectors m.cache) :
    (insert s (held ∪ dirty)).card ≤ NBUF := by
  have hsub : insert s (held ∪ dirty) ⊆ (sectors m.cache).toFinset := by
    intro x hx
    rw [List.mem_toFinset]
    rcases Finset.mem_insert.1 hx with rfl | hx
    · exact hs
    · exact H.cached x (Finset.mem_union.1 hx)
  calc (insert s (held ∪ dirty)).card ≤ (sectors m.cache).toFinset.card := Finset.card_le_card hsub
    _ ≤ (sectors m.cache).length := List.toFinset_card_le _
    _ ≤ m.cache.length := List.length_filterMap_le _ _
    _ = NBUF := H.length

/-- If every buffer is busy or dirty, there is none for another sector. -/
theorem card_lt_of_full (H : Holds m view held dirty) (hs : s ∉ sectors m.cache)
    (hfull : ∀ b ∈ m.cache, b.busy = true ∨ b.dirty = true) :
    NBUF < (insert s (held ∪ dirty)).card := by
  have hsome : ∀ b ∈ m.cache, ∃ x, b.sector = some x ∧ x ∈ held ∪ dirty := by
    intro b hb
    cases hx : b.sector with
    | none =>
      obtain ⟨h₁, h₂⟩ := H.blank b hb hx
      rcases hfull b hb with h | h
      · cases h₁.symm.trans h
      · cases h₂.symm.trans h
    | some x =>
      obtain ⟨-, -, hbusy, hdirty⟩ := H.flags b hb x hx
      exact ⟨x, rfl, Finset.mem_union.2 ((hfull b hb).imp hbusy.1 hdirty.1)⟩
  have hlen : (sectors m.cache).length = NBUF := by
    rw [sectors, List.length_filterMap_eq_countP, ← H.length, List.countP_eq_length]
    intro b hb
    obtain ⟨x, hx, -⟩ := hsome b hb
    rw [hx]
    rfl
  have hsub : (sectors m.cache).toFinset ⊆ held ∪ dirty := by
    intro x hx
    obtain ⟨b, hb, hbx⟩ := mem_sectors.1 (List.mem_toFinset.1 hx)
    obtain ⟨y, hy, hmem⟩ := hsome b hb
    cases hbx.symm.trans hy
    exact hmem
  have hnot : s ∉ held ∪ dirty := fun h => hs (H.cached s (Finset.mem_union.1 h))
  rw [Finset.card_insert_of_notMem hnot, Nat.lt_succ_iff, ← hlen,
    ← List.toFinset_card_of_nodup H.nodup]
  exact Finset.card_le_card hsub

theorem recycled (H : Holds m view held dirty) {pre post : List Buf} {a : Buf}
    (hc : m.cache = pre ++ a :: post) (ha : a.busy = false ∧ a.dirty = false)
    (hs : s ∉ sectors m.cache) (hb : b.sector = some s) (hflags : b.valid = true ∧
      b.data = view s ∧ b.busy = true ∧ b.dirty = false) (hm : m'.cache = pre ++ b :: post)
    (hdisk : m'.disk = m.disk) : Holds m' view (insert s held) dirty := by
  have hsec : sectors m.cache = sectors pre ++ a.sector.toList ++ sectors post := by
    rw [hc, sectors, List.filterMap_append, List.append_assoc]
    cases h : a.sector with
    | none => rw [List.filterMap_cons_none h]; rfl
    | some x => rw [List.filterMap_cons_some h]; rfl
  have hsec' : sectors m'.cache = sectors pre ++ s :: sectors post := by
    rw [hm, sectors, List.filterMap_append, List.filterMap_cons_some hb]
    rfl
  have hsub : (sectors pre ++ sectors post).Sublist (sectors m.cache) := by
    rw [hsec, List.append_assoc]
    exact (List.Sublist.refl _).append (List.sublist_append_right _ _)
  have hmem : ∀ b' ∈ m'.cache, b' = b ∨ b' ∈ m.cache ∧ b'.sector ≠ some s := by
    intro b' hb'
    rw [hm, List.mem_append, List.mem_cons] at hb'
    have hold : ∀ b' ∈ m.cache, b'.sector ≠ some s := by
      intro b' hb' h
      exact hs (mem_sectors.2 ⟨b', hb', h⟩)
    rcases hb' with h | rfl | h
    · have : b' ∈ m.cache := by rw [hc]; exact List.mem_append_left _ h
      exact .inr ⟨this, hold b' this⟩
    · exact .inl rfl
    · have : b' ∈ m.cache := by rw [hc]; exact List.mem_append_right _ (List.mem_cons_of_mem _ h)
      exact .inr ⟨this, hold b' this⟩
  have hnot : s ∉ dirty := fun h => hs (H.cached s (.inr h))
  refine ⟨?_, ?_, fun b' hb' hn => ?_, fun b' hb' x hx => ?_, fun x hx => ?_, hdisk ▸ H.clean⟩
  · have := H.length
    rw [hc, List.length_append, List.length_cons] at this
    rw [hm, List.length_append, List.length_cons, this]
  · rw [hsec', List.nodup_middle, List.nodup_cons]
    exact ⟨fun h => hs (hsub.subset h), H.nodup.sublist hsub⟩
  · obtain rfl | ⟨hb', -⟩ := hmem b' hb'
    · cases hb.symm.trans hn
    · exact H.blank b' hb' hn
  · obtain rfl | ⟨hb', hne⟩ := hmem b' hb'
    · cases hb.symm.trans hx
      simp [hflags, hnot]
    · have hxs : x ≠ s := by
        rintro rfl
        exact hne hx
      rw [Finset.mem_insert, or_iff_right hxs]
      exact H.flags b' hb' x hx
  · rw [Finset.mem_insert, or_assoc] at hx
    rw [hsec', List.mem_append, List.mem_cons]
    rcases hx with rfl | hx
    · exact .inr (.inl rfl)
    · -- the sector of the buffer that was taken over was neither held nor dirty
      have hmem' := H.cached x hx
      rw [hsec, List.mem_append, List.mem_append] at hmem'
      rcases hmem' with (h | h) | h
      · exact .inl h
      · have hax : a.sector = some x := by simpa using h
        obtain ⟨-, -, hbusy, hdirty⟩ := H.flags a (by rw [hc]; simp) x hax
        rw [← hbusy, ← hdirty, ha.1, ha.2] at hx
        simp at hx
      · exact .inr (.inr h)

theorem bread_held (H : Holds m view held dirty) (hs : s ∈ held) :
    Fs.bread s m = .error .asleep := by
  obtain ⟨b, hb, hbs, hlook⟩ := H.exists_buf (.inl hs)
  have hbusy := (H.flags b hb s hbs).2.2.1.2 hs
  rw [Fs.bread, bget, hlook]
  simp only [hbusy, if_true, bind, Except.bind]

theorem bread_full (H : Holds m view held dirty)
    (hfull : NBUF < (insert s (held ∪ dirty)).card) :
    Fs.bread s m = .error (.panic .noBuffers) := by
  have hnot : s ∉ sectors m.cache := fun h => absurd (H.card_le_of_cached h) (by omega)
  cases hr : recycle s m.cache with
  | none =>
    rw [Fs.bread, bget, lookup_eq_none.2 hnot]
    simp only [hr, bind, Except.bind]
  | some c =>
    -- with the buffer that is found the sector would be in the cache
    obtain ⟨pre, a, post, hc, hbusy, hdirty, -⟩ := recycle_eq_some hr
    have H' : Holds { m with cache := pre ++ ⟨some s, true, true, false, view s⟩ :: post } view
        (insert s held) dirty :=
      H.recycled hc ⟨hbusy, hdirty⟩ hnot rfl ⟨rfl, rfl, rfl, rfl⟩ rfl rfl
    have hle := H'.card_le_of_cached (s := s) (by simp [sectors])
    rw [Finset.insert_union, Finset.insert_idem] at hle
    omega

/-- `bread` shows the block and holds the buffer. -/
theorem bread (H : Holds m view held dirty) (hs : s ∉ held)
    (hroom : (insert s (held ∪ dirty)).card ≤ NBUF) :
    ∃ c, Fs.bread s m = .ok (view s, { m with cache := c }) ∧
      Holds { m with cache := c } view (insert s held) dirty := by
  by_cases hcached : s ∈ sectors m.cache
  · obtain ⟨b, hb, hbs⟩ := mem_sectors.1 hcached
    obtain ⟨hvalid, hdata, hbusy, hdirty⟩ := H.flags b hb s hbs
    have hlook := lookup_eq_some H.nodup hb hbs
    have hfree : b.busy = false := by
      rw [← Bool.not_eq_true, hbusy]
      exact hs
    have H' : Holds { m with cache := Fs.modify s (fun b => { b with busy := true }) m.cache } view
        (insert s held) dirty := by
      refine H.modify hcached (fun a ha has => ?_) (fun _ _ => rfl) (fun x hx => ?_)
        (fun _ _ => Iff.rfl) rfl H.clean
      · obtain rfl := eq_of_sector H.nodup hb ha hbs has
        exact ⟨hbs, hvalid, hdata, by simp, hdirty⟩
      · rw [Finset.mem_insert, or_iff_right hx]
    have hlook' : lookup s (Fs.modify s (fun b => { b with busy := true }) m.cache) =
        some { b with busy := true } := by
      refine lookup_eq_some H'.nodup (List.mem_map.2 ⟨b, hb, if_pos hbs⟩) hbs
    refine ⟨_, ?_, H'⟩
    rw [Fs.bread, bget, hlook]
    simp only [hfree, Bool.false_eq_true, if_false, bind, Except.bind, hlook', hvalid, if_true,
      hdata]
  · cases hr : recycle s m.cache with
    | none => exact absurd (H.card_lt_of_full hcached (recycle_eq_none hr)) (by omega)
    | some c =>
      obtain ⟨pre, a, post, hc, hbusy, hdirty, rfl⟩ := recycle_eq_some hr
      have hnot : s ∉ dirty := fun h => hcached (H.cached s (.inr h))
      rw [hc] at hcached
      have hpre := notMem_sectors_middle hcached
      rw [← hc] at hcached
      -- the buffer is read from the disk
      have hlook : lookup s (pre ++
          { a with sector := some s, busy := true, valid := false, dirty := false } :: post) = _ :=
        lookup_middle hpre.1 rfl
      have hmod := modify_middle hpre.1 hpre.2
        (b := { a with sector := some s, busy := true, valid := false, dirty := false }) rfl
        fun _ => ⟨some s, true, true, false, m.disk s⟩
      refine ⟨pre ++ ⟨some s, true, true, false, m.disk s⟩ :: post, ?_, ?_⟩
      · rw [Fs.bread, bget, lookup_eq_none.2 hcached]
        simp only [hr, bind, Except.bind, hlook, Bool.false_eq_true, if_false, iderw, Bool.not_true,
          Bool.false_and, hmod]
        rw [lookup_middle hpre.1 rfl, H.clean s hnot]
        rfl
      · exact H.recycled hc ⟨hbusy, hdirty⟩ hcached rfl ⟨rfl, (H.clean s hnot).symm, rfl, rfl⟩ rfl
          rfl

/-! ### Writing and releasing -/

theorem written (H : Holds m view held dirty) (hs : s ∈ held)
    (hbs : b.sector = some s) (hbusy : b.busy = true) (data : Sector) (power : Option ℕ) :
    Holds { m with
        disk := Function.update m.disk s data
        power := power
        cache := Fs.modify s (fun _ => { b with data := data, valid := true, dirty := false })
          m.cache }
      (Function.update view s data) held (dirty.erase s) := by
  refine H.modify (H.cached s (.inl hs)) (fun a _ _ => ?_)
    (fun x hx => Function.update_of_ne hx _ _) (fun _ _ => Iff.rfl) (fun x hx => ?_) rfl
    fun x hx => ?_
  · refine ⟨hbs, rfl, ?_, ?_, ?_⟩
    · rw [Function.update_self]
    · exact iff_of_true hbusy hs
    · exact iff_of_false Bool.false_ne_true (Finset.notMem_erase s dirty)
  · rw [Finset.mem_erase, and_iff_right hx]
  · change _ = Function.update m.disk s data x
    by_cases hxs : x = s
    · rw [hxs, Function.update_self, Function.update_self]
    · rw [Finset.mem_erase, and_iff_right hxs] at hx
      rw [Function.update_of_ne hxs, Function.update_of_ne hxs]
      exact H.clean x hx

/-- `bwrite` puts the buffer on the disk, if the power does not fail. -/
theorem bwrite (H : Holds m view held dirty) (hs : s ∈ held) (data : Sector) :
    EnsuresOr (fun m' => m'.log = m.log ∧ m'.disk = Function.update m.disk s data ∧
        (m.power = none → m'.power = none) ∧
        Holds m' (Function.update view s data) held (dirty.erase s))
      (fun e => e = .crash m.disk ∧ m.power ≠ none) (Fs.bwrite s data m) := by
  obtain ⟨b, hb, hbs, hlook⟩ := H.exists_buf (.inl hs)
  have hbusy := (H.flags b hb s hbs).2.2.1.2 hs
  have hwritten := H.written hs hbs hbusy data
  rw [Fs.bwrite, hlook]
  simp only [hbusy, Bool.not_true, Bool.false_eq_true, if_false, iderw, Bool.and_false, if_true]
  simp only [hbusy] at hwritten
  cases hp : m.power with
  | none => exact .ok ⟨rfl, rfl, fun _ => rfl, hwritten none⟩
  | some n =>
    cases n with
    | zero => exact .error ⟨rfl, Option.some_ne_none _⟩
    | succ n => exact .ok ⟨rfl, rfl, fun h => absurd h (Option.some_ne_none _), hwritten _⟩

theorem mark (H : Holds m view held dirty) (hs : s ∈ held) (data : Sector)
    (hc : m'.cache = Fs.modify s (fun b => { b with data := data, dirty := true }) m.cache)
    (hd : m'.disk = m.disk) : Holds m' (Function.update view s data) held (insert s dirty) := by
  refine H.modify (H.cached s (.inl hs)) (fun b hb hbs => ?_)
    (fun x hx => Function.update_of_ne hx _ _) (fun _ _ => Iff.rfl) (fun x hx => ?_) hc
    fun x hx => ?_
  · obtain ⟨hvalid, -, hbusy, -⟩ := H.flags b hb s hbs
    refine ⟨hbs, hvalid, ?_, hbusy, iff_of_true rfl (Finset.mem_insert_self s dirty)⟩
    rw [Function.update_self]
  · rw [Finset.mem_insert, or_iff_right hx]
  · rw [Finset.mem_insert, not_or] at hx
    rw [Function.update_of_ne hx.1, hd]
    exact H.clean x hx.2

theorem perm (H : Holds m view held dirty) (hc : c.Perm m.cache) :
    Holds { m with cache := c } view held dirty where
  length := hc.length_eq.trans H.length
  nodup := (hc.filterMap _).nodup_iff.2 H.nodup
  blank b hb := H.blank b (hc.mem_iff.1 hb)
  flags b hb := H.flags b (hc.mem_iff.1 hb)
  cached s hs := (hc.filterMap _).mem_iff.2 (H.cached s hs)
  clean := H.clean

/-- `brelse` gives the buffer back. -/
theorem brelse (H : Holds m view held dirty) (hs : s ∈ held) :
    ∃ c, Fs.brelse s m = .ok { m with cache := c } ∧
      Holds { m with cache := c } view (held.erase s) dirty := by
  obtain ⟨b, hb, hbs, hlook⟩ := H.exists_buf (.inl hs)
  obtain ⟨hvalid, hdata, hbusy, hdirty⟩ := H.flags b hb s hbs
  have H' : Holds { m with cache := Fs.modify s (fun _ => { b with busy := false }) m.cache } view
      (held.erase s) dirty := by
    refine H.modify (H.cached s (.inl hs)) (fun a _ _ => ?_) (fun _ _ => rfl) (fun x hx => ?_)
      (fun _ _ => Iff.rfl) rfl H.clean
    · refine ⟨hbs, hvalid, hdata, ?_, hdirty⟩
      exact iff_of_false Bool.false_ne_true (Finset.notMem_erase s held)
    · rw [Finset.mem_erase, and_iff_right hx]
  refine ⟨{ b with busy := false } :: m.cache.filter fun b => b.sector ≠ some s, ?_, H'.perm ?_⟩
  · rw [Fs.brelse, hlook]
    simp only [hbusy.2 hs, Bool.not_true, Bool.false_eq_true, if_false]
  · -- the other buffers are those with another sector
    obtain ⟨pre, post, hc⟩ := List.append_of_mem hb
    have hn := H.nodup
    rw [hc, sectors, List.filterMap_append, List.filterMap_cons_some hbs, List.nodup_middle,
      List.nodup_cons, List.mem_append, not_or] at hn
    have hkeep : ∀ c : List Buf, s ∉ sectors c → c.filter (fun b => b.sector ≠ some s) = c := by
      intro c h
      refine List.filter_eq_self.2 fun a ha => decide_eq_true fun has => ?_
      exact h (mem_sectors.2 ⟨a, ha, has⟩)
    simp only [hc]
    rw [modify_middle hn.1.1 hn.1.2 hbs, List.filter_append,
      List.filter_cons_of_neg (by simp [hbs]), hkeep pre hn.1.1, hkeep post hn.1.2]
    exact List.perm_middle.symm

theorem brelse_not_held (H : Holds m view held dirty) (hs : s ∉ held) :
    Fs.brelse s m = .error .fault ∨ Fs.brelse s m = .error (.panic .brelse) := by
  rw [Fs.brelse]
  cases hlook : lookup s m.cache with
  | none => exact .inl rfl
  | some b =>
    obtain ⟨hb, hbs⟩ := lookup_spec hlook
    have hbusy : b.busy = false := by
      rw [← Bool.not_eq_true, (H.flags b hb s hbs).2.2.1]
      exact hs
    simp [hbusy]

end Holds

end Fs

end Xv6Editor
