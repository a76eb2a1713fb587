import Xv6Editor.Fs.Cache

/-!
# The log

`log.c`: the blocks that a transaction changes go to the log first, `commit_trans` writes the header
of the log, copies the blocks to their places and clears the header again.  After a power failure
`recover_from_log` does the copying once more, if it finds a header that is not empty.

* `Durable sb v disk` : what recovery makes of `disk`: below the log there will be the blocks `v`.
  This does not depend on whether the copying has begun, so that recovery can itself be interrupted.
* `Holds.installTrans` : what copying does, and what is on the disk if the power fails meanwhile.
* `initlog_spec` : recovery from a durable disk.
-/

namespace Xv6Editor

namespace Fs

/-- The number of blocks in a transaction. -/
def LOGSIZE : ℕ := 10

/-- `struct superblock`. -/
structure Superblock where
  size : ℕ
  nblocks : ℕ
  ninodes : ℕ
  nlog : ℕ
  deriving DecidableEq

/-- The superblock in a block. -/
def Superblock.ofSector (b : Sector) : Superblock := ⟨b.word 0, b.word 1, b.word 2, b.word 3⟩

/-- Where the log starts. -/
def Superblock.start (sb : Superblock) : ℕ := sb.size - sb.nlog

/-! ### The header -/

/-- Put numbers into the words of a block from the `i`-th on. -/
def putWords : ℕ → List ℕ → Sector → Sector
  | _, [], b => b
  | i, x :: xs, b => putWords (i + 1) xs (b.setWord i x)

/-- A block with the superblock. -/
def Superblock.toSector (sb : Superblock) : Sector :=
  putWords 0 [sb.size, sb.nblocks, sb.ninodes, sb.nlog] (Block.zero 512)

/-- The numbers have 32 bits. -/
def Superblock.Small (sb : Superblock) : Prop :=
  sb.size < 2 ^ 32 ∧ sb.nblocks < 2 ^ 32 ∧ sb.ninodes < 2 ^ 32 ∧ sb.nlog < 2 ^ 32

instance (sb : Superblock) : Decidable sb.Small := inferInstanceAs (Decidable (_ ∧ _))

/-- The header of the log in memory, put into the block of the header. -/
def putHead (lh : List ℕ) (b : Sector) : Sector := putWords 1 lh (b.setWord 0 lh.length)

/-- The header in a block.  The number of entries is signed, and there is only room for `LOGSIZE`
of them in memory. -/
def getHead (b : Sector) : Option (List ℕ) :=
  if 2 ^ 31 ≤ b.word 0 then some []
  else if LOGSIZE < b.word 0 then none
  else some ((List.range (b.word 0)).map fun i => b.word (i + 1))

/-! ### Operations -/

/-- `bp = bread(x)`, a change of `bp->data`, `bwrite(bp)`, `brelse(bp)`. -/
def rewrite (x : ℕ) (f : Sector → Sector) (m : Machine) : Except Stop Machine := do
  let (b, m) ← bread x m
  let m ← bwrite x (f b) m
  brelse x m

/-- `readsb(dev, &sb)`. -/
def readsb (m : Machine) : Except Stop (Superblock × Machine) := do
  let (b, m) ← bread 1 m
  let m ← brelse 1 m
  .ok (.ofSector b, m)

/-- One round of the loop of `install_trans`: copy the block `l` of the log to its place. -/
def installBlock (l s : ℕ) (m : Machine) : Except Stop Machine := do
  let (lbuf, m) ← bread l m
  let (_, m) ← bread s m
  let m ← bwrite s lbuf m
  let m ← brelse l m
  brelse s m

/-- The loop of `install_trans`, from the entry `tail` of the header on. -/
def installFrom : ℕ → List ℕ → Machine → Except Stop Machine
  | _, [], m => .ok m
  | tail, s :: lh, m => do
    let m ← installBlock (m.log.start + tail + 1) s m
    installFrom (tail + 1) lh m

/-- `install_trans()`. -/
def installTrans (m : Machine) : Except Stop Machine := installFrom 0 m.log.lh m

/-- `read_head()`. -/
def readHead (m : Machine) : Except Stop Machine := do
  let (b, m) ← bread m.log.start m
  match getHead b with
  | none => .error .fault
  | some lh => brelse m.log.start { m with log := { m.log with lh := lh } }

/-- `write_head()`. -/
def writeHead (m : Machine) : Except Stop Machine := rewrite m.log.start (putHead m.log.lh) m

/-- `log.lh.n = 0`. -/
def clearHead (m : Machine) : Machine := { m with log := { m.log with lh := [] } }

/-- `recover_from_log()`. -/
def recoverFromLog (m : Machine) : Except Stop Machine := do
  let m ← readHead m
  let m ← installTrans m
  writeHead (clearHead m)

/-- `initlog()`. -/
def initlog (m : Machine) : Except Stop Machine := do
  let (sb, m) ← readsb m
  recoverFromLog { m with log := { m.log with start := sb.start, size := sb.nlog } }

/-- The machine when it is switched on. -/
def boot (disk : Blocks) (power : Option ℕ) : Machine :=
  ⟨disk, power, List.replicate NBUF .blank, ⟨0, 0, false, []⟩⟩

/-- `begin_trans()`. -/
def beginTrans (m : Machine) : Except Stop Machine :=
  if m.log.busy then .error .asleep else .ok { m with log := { m.log with busy := true } }

/-- The first half of `commit_trans()`: the log is committed, installed and cleared. -/
def commitLog (m : Machine) : Except Stop Machine :=
  if m.log.lh = [] then .ok m
  else do
    let m ← writeHead m
    let m ← installTrans m
    writeHead (clearHead m)

/-- `commit_trans()`. -/
def commitTrans (m : Machine) : Except Stop Machine := do
  let m ← commitLog m
  .ok { m with log := { m.log with busy := false } }

/-- The end of `log_write`: the sector is the `i`-th one in the header, and its buffer gets the
contents that the caller has given it, with the flag `B_DIRTY`. -/
def enter (i s : ℕ) (data : Sector) (m : Machine) : Except Stop Machine :=
  match lookup s m.cache with
  | none => .error .fault
  | some b =>
    if !b.busy then .error .fault
    else .ok { m with
      log := { m.log with lh := if i = m.log.lh.length then m.log.lh ++ [s] else m.log.lh }
      cache := modify s (fun b => { b with data := data, dirty := true }) m.cache }

/-- `log_write(b)` for the buffer of the sector `s`, when the caller has put `data` into
`b->data`. -/
def logWrite (s : ℕ) (data : Sector) (m : Machine) : Except Stop Machine :=
  if LOGSIZE ≤ m.log.lh.length ∨ m.log.size ≤ m.log.lh.length + 1 then .error (.panic .tooBig)
  else if !m.log.busy then .error (.panic .outsideTrans)
  else do
    let i := m.log.lh.idxOf s
    let m ← rewrite (m.log.start + i + 1) (fun _ => data) m
    enter i s data m

/-! ### Durable disks -/

/-- What recovery makes of `disk`: below the log there will be `v`. -/
structure Durable (sb : Superblock) (v disk : Blocks) : Prop where
  super : .ofSector (disk 1) = sb
  head : ∃ lh, getHead (disk sb.start) = some lh ∧ lh.length < NBUF ∧
    (∀ i s, lh[i]? = some s → s < sb.start ∧ s ≠ 1 ∧ disk (sb.start + i + 1) = v s) ∧
    ∀ s, s < sb.start → s ∉ lh → disk s = v s

variable {m m' : Machine} {view v w disk : Blocks} {held dirty : Finset ℕ} {s x : ℕ}
  {lh : List ℕ} {sb : Superblock} {b : Sector}

theorem word_putWords {i : ℕ} {xs : List ℕ} (hi : 4 * (i + xs.length) ≤ 512)
    (hx : ∀ x ∈ xs, x < 2 ^ 32) (b : Sector) (j : ℕ) :
    (putWords i xs b).word j = if i ≤ j then xs[j - i]?.getD (b.word j) else b.word j := by
  induction xs generalizing i b with
  | nil => simp [putWords]
  | cons x xs ih =>
    rw [List.length_cons] at hi
    rw [List.forall_mem_cons] at hx
    rw [putWords, ih (by omega) hx.2, b.word_setWord (by omega) hx.1]
    rcases lt_trichotomy j i with h | rfl | h
    · rw [if_neg (by omega), if_neg (by omega), if_neg (by omega)]
    · rw [if_neg (by omega), if_pos rfl, if_pos le_rfl, Nat.sub_self]
      rfl
    · rw [if_pos (by omega), if_neg (by omega), if_pos (by omega),
        show j - i = j - (i + 1) + 1 by omega, List.getElem?_cons_succ]

theorem Superblock.ofSector_toSector (hsb : sb.Small) : .ofSector sb.toSector = sb := by
  have hsmall : ∀ x ∈ [sb.size, sb.nblocks, sb.ninodes, sb.nlog], x < 2 ^ 32 := by
    simpa [Superblock.Small] using hsb
  have hword := word_putWords (by simp : 4 * (0 + _) ≤ 512) hsmall (Block.zero 512)
  rw [ofSector, toSector, hword 0, hword 1, hword 2, hword 3]
  rfl

theorem getHead_putHead (hn : lh.length ≤ LOGSIZE) (hs : ∀ s ∈ lh, s < 2 ^ 32) (b : Sector) :
    getHead (putHead lh b) = some lh := by
  have hL : LOGSIZE = 10 := rfl
  have hword : ∀ j, (putHead lh b).word j =
      if 1 ≤ j then lh[j - 1]?.getD ((b.setWord 0 lh.length).word j) else lh.length := by
    intro j
    rw [putHead, word_putWords (by omega) hs]
    split_ifs with hj
    · rfl
    · rw [b.word_setWord (by omega) (by omega), if_pos (by omega)]
  have h0 : (putHead lh b).word 0 = lh.length := hword 0
  rw [getHead, h0, if_neg (by omega), if_neg (by omega)]
  congr 1
  refine List.ext_getElem? fun i => ?_
  rw [List.getElem?_map]
  by_cases hi : i < lh.length
  · rw [List.getElem?_range hi, Option.map_some, hword, if_pos (by omega), Nat.add_sub_cancel,
      List.getElem?_eq_getElem hi]
    rfl
  · rw [List.getElem?_eq_none (by simpa using hi), List.getElem?_eq_none (by omega)]
    rfl

/-- The blocks of `lh` as in `v`, the others as in `w`. -/
def patch (v : Blocks) (lh : List ℕ) (w : Blocks) : Blocks := fun x => if x ∈ lh then v x else w x

theorem patch_cons (v : Blocks) (s : ℕ) (lh : List ℕ) (w : Blocks) :
    patch v (s :: lh) w = patch v lh (Function.update w s (v s)) := by
  funext x
  rw [patch, patch]
  by_cases hx : x ∈ lh
  · rw [if_pos hx, if_pos (List.mem_cons_of_mem s hx)]
  · by_cases hs : x = s
    · rw [if_pos (hs ▸ List.mem_cons_self), if_neg hx, hs, Function.update_self]
    · rw [if_neg (by simp [hs, hx]), if_neg hx, Function.update_of_ne hs]

/-! ### Single steps -/

/-- The power failed, with a disk of which `C` holds. -/
def Fails (m : Machine) (C : Blocks → Prop) (e : Stop) : Prop :=
  m.power ≠ none ∧ ∃ d, e = .crash d ∧ C d

/-- The log in memory and the source of power stay. -/
def SameLog (m m' : Machine) : Prop := m'.log = m.log ∧ (m.power = none → m'.power = none)

theorem SameLog.refl (m : Machine) : SameLog m m := ⟨rfl, id⟩

theorem SameLog.trans {m'' : Machine} (h : SameLog m m') (h' : SameLog m' m'') :
    SameLog m m'' :=
  ⟨h'.1.trans h.1, fun hp => h'.2 (h.2 hp)⟩

theorem Fails.imp {C C' : Blocks → Prop} {e : Stop} (h : Fails m' C e)
    (hp : m.power = none → m'.power = none) (hC : ∀ d, C d → C' d) : Fails m C' e := by
  obtain ⟨hne, d, he, hd⟩ := h
  exact ⟨fun hm => hne (hp hm), d, he, hC d hd⟩

namespace Holds

/-- Reading and releasing changes only the cache. -/
theorem bread_brelse (H : Holds m w held dirty) (hx : x ∉ held)
    (hroom : (insert x (held ∪ dirty)).card ≤ NBUF) :
    ∃ c c', Fs.bread x m = .ok (w x, { m with cache := c }) ∧
      Fs.brelse x { m with cache := c } = .ok { m with cache := c' } ∧
      Holds { m with cache := c' } w held dirty := by
  obtain ⟨c, hc, H₁⟩ := H.bread hx hroom
  obtain ⟨c', hc', H₂⟩ := H₁.brelse (Finset.mem_insert_self x held)
  rw [Finset.erase_insert hx] at H₂
  exact ⟨c, c', hc, hc', H₂⟩

theorem rewrite (H : Holds m w held dirty) (hx : x ∉ held)
    (hroom : (insert x (held ∪ dirty)).card ≤ NBUF) (f : Sector → Sector) :
    EnsuresOr (fun m' => SameLog m m' ∧ m'.disk = Function.update m.disk x (f (w x)) ∧
        Holds m' (Function.update w x (f (w x))) held (dirty.erase x))
      (Fails m (· = m.disk)) (Fs.rewrite x f m) := by
  obtain ⟨c, hc, H₁⟩ := H.bread hx hroom
  rw [Fs.rewrite, hc]
  change EnsuresOr _ _ (Fs.bwrite x (f (w x)) _ >>= _)
  refine .bind ((H₁.bwrite (Finset.mem_insert_self x held) (f (w x))).imp (fun _ => id)
    fun e he => ⟨he.2, _, he.1, rfl⟩) fun m₂ ⟨hlog, hdisk, hpow, H₂⟩ => ?_
  obtain ⟨c', hc', H₃⟩ := H₂.brelse (Finset.mem_insert_self x held)
  rw [Finset.erase_insert hx] at H₃
  rw [hc']
  exact .ok ⟨⟨hlog, hpow⟩, hdisk, H₃⟩

theorem enter (H : Holds m w held dirty) (hs : s ∈ held) (i : ℕ) (data : Sector) :
    ∃ c, Fs.enter i s data m = .ok { m with
        log := { m.log with lh := if i = m.log.lh.length then m.log.lh ++ [s] else m.log.lh }
        cache := c } ∧
      ∀ m', m'.cache = c → m'.disk = m.disk →
        Holds m' (Function.update w s data) held (insert s dirty) := by
  obtain ⟨b, hb, hbs, hlook⟩ := H.exists_buf (.inl hs)
  have hbusy := (H.flags b hb s hbs).2.2.1.2 hs
  refine ⟨Fs.modify s (fun b => { b with data := data, dirty := true }) m.cache, ?_,
    fun m' hc hd => H.mark hs data hc hd⟩
  rw [Fs.enter, hlook]
  simp only [hbusy, Bool.not_true, Bool.false_eq_true, if_false]

theorem enter_not_held (H : Holds m w held dirty) (hs : s ∉ held) (i : ℕ) (data : Sector) :
    Fs.enter i s data m = .error .fault := by
  rw [Fs.enter]
  cases hlook : lookup s m.cache with
  | none => rfl
  | some b =>
    obtain ⟨hb, hbs⟩ := lookup_spec hlook
    have hbusy : b.busy = false := by
      rw [← Bool.not_eq_true, (H.flags b hb s hbs).2.2.1]
      exact hs
    simp [hbusy]

theorem installBlock (H : Holds m w ∅ dirty) {l : ℕ} (hs : s ≠ l)
    (hroom : (insert l (insert s dirty)).card ≤ NBUF) :
    EnsuresOr (fun m' => SameLog m m' ∧ m'.disk = Function.update m.disk s (w l) ∧
        Holds m' (Function.update w s (w l)) ∅ (dirty.erase s))
      (Fails m (· = m.disk)) (Fs.installBlock l s m) := by
  have hroom₁ : (insert l (∅ ∪ dirty)).card ≤ NBUF := by
    rw [Finset.empty_union]
    exact (Finset.card_le_card (Finset.insert_subset_insert l (Finset.subset_insert s dirty))).trans
      hroom
  obtain ⟨c, hc, H₁⟩ := H.bread (Finset.notMem_empty l) hroom₁
  obtain ⟨c', hc', H₂⟩ := H₁.bread (s := s) (by simp [hs]) (by
    rwa [Finset.insert_union, Finset.empty_union, Finset.insert_comm])
  rw [Fs.installBlock, hc]
  change EnsuresOr _ _ (Fs.bread s _ >>= _)
  rw [hc']
  change EnsuresOr _ _ (Fs.bwrite s (w l) _ >>= _)
  refine .bind ((H₂.bwrite (by simp) (w l)).imp (fun _ => id)
    fun e he => ⟨he.2, _, he.1, rfl⟩) fun m₃ ⟨hlog, hdisk, hpow, H₃⟩ => ?_
  obtain ⟨c₄, hc₄, H₄⟩ := H₃.brelse (s := l) (by simp)
  rw [hc₄]
  change EnsuresOr _ _ (Fs.brelse s _)
  obtain ⟨c₅, hc₅, H₅⟩ := H₄.brelse (s := s) (by simp [hs])
  rw [hc₅]
  have hheld : ((insert s (insert l (∅ : Finset ℕ))).erase l).erase s = ∅ := by
    ext y
    simp only [Finset.mem_erase, Finset.mem_insert, Finset.notMem_empty]
    tauto
  rw [hheld] at H₅
  exact .ok ⟨⟨hlog, hpow⟩, hdisk, H₅⟩

/-- `install_trans` copies the blocks of the log to their places.  If the power fails, some of them
are there. -/
theorem installFrom {tail : ℕ} (H : Holds m w ∅ dirty)
    (hcopy : ∀ i s, lh[i]? = some s → s < m.log.start ∧ w (m.log.start + (tail + i) + 1) = v s)
    (hdirty : ∀ s ∈ dirty, s < m.log.start) (hroom : (dirty ∪ lh.toFinset).card < NBUF) :
    EnsuresOr (fun m' => SameLog m m' ∧ m'.disk = patch v lh m.disk ∧
        Holds m' (patch v lh w) ∅ (dirty \ lh.toFinset))
      (Fails m fun d => ∀ x, d x = m.disk x ∨ x ∈ lh ∧ d x = v x)
      (Fs.installFrom tail lh m) := by
  induction lh generalizing m w dirty tail with
  | nil =>
    have hpatch : ∀ w, patch v [] w = w := fun w => funext fun x => if_neg List.not_mem_nil
    rw [hpatch, hpatch]
    exact .ok ⟨.refl m, rfl, by simpa using H⟩
  | cons s lh ih =>
    obtain ⟨hs, hv⟩ : s < m.log.start ∧ w (m.log.start + tail + 1) = v s := hcopy 0 s rfl
    have hsub : dirty.erase s ∪ lh.toFinset ⊆ dirty ∪ (s :: lh).toFinset := by
      intro y hy
      simp only [Finset.mem_union, Finset.mem_erase, List.mem_toFinset, List.mem_cons] at hy ⊢
      tauto
    have hstep := H.installBlock (l := m.log.start + tail + 1) (s := s) (by omega) (by
      refine (Finset.card_insert_le _ _).trans (Nat.succ_le_of_lt (lt_of_le_of_lt ?_ hroom))
      refine Finset.card_le_card fun y hy => ?_
      rw [Finset.mem_insert] at hy
      simp only [Finset.mem_union, List.mem_toFinset, List.mem_cons]
      tauto)
    rw [Fs.installFrom]
    refine .bind (hstep.imp (fun _ => id) fun e he => he.imp id ?_) fun m₁ ⟨hsame, hdisk, H₁⟩ => ?_
    · rintro _ rfl x
      exact .inl rfl
    · rw [hv] at hdisk H₁
      have hcopy' : ∀ i s', lh[i]? = some s' → s' < m₁.log.start ∧
          Function.update w s (v s) (m₁.log.start + (tail + 1 + i) + 1) = v s' := by
        intro i s' hi
        obtain ⟨hs', hv'⟩ := hcopy (i + 1) s' hi
        rw [hsame.1, Function.update_of_ne (by omega)]
        exact ⟨hs', by rw [← hv', Nat.add_right_comm tail 1 i]; rfl⟩
      have hrest := ih H₁ hcopy' (fun s' hs' => by
          rw [hsame.1]
          exact hdirty s' (Finset.mem_of_mem_erase hs'))
        (lt_of_le_of_lt (Finset.card_le_card hsub) hroom)
      have hset : dirty.erase s \ lh.toFinset = dirty \ (s :: lh).toFinset := by
        ext y
        simp only [Finset.mem_sdiff, Finset.mem_erase, List.mem_toFinset, List.mem_cons]
        tauto
      rw [hdisk, hset, ← patch_cons, ← patch_cons] at hrest
      refine hrest.imp (fun m' ⟨hsame', hrest'⟩ => ⟨hsame.trans hsame', hrest'⟩)
        fun e he => he.imp hsame.2 fun d hd x => ?_
      obtain hx | ⟨hx, hd⟩ := hd x
      · by_cases hxs : x = s
        · rw [hxs, Function.update_self] at hx
          exact .inr ⟨hxs ▸ List.mem_cons_self, hxs ▸ hx⟩
        · rw [Function.update_of_ne hxs] at hx
          exact .inl hx
      · exact .inr ⟨List.mem_cons_of_mem s hx, hd⟩

end Holds

/-! ### Recovery -/

/-- Where the copying has begun, recovery still makes the same of the disk. -/
theorem Durable.of_installing {disk' : Blocks} (hsuper : .ofSector (disk 1) = sb)
    (hhead : getHead (disk sb.start) = some lh) (hlen : lh.length < NBUF)
    (hcopy : ∀ i s, lh[i]? = some s → s < sb.start ∧ s ≠ 1 ∧ disk (sb.start + i + 1) = v s)
    (hrest : ∀ s, s < sb.start → s ∉ lh → disk s = v s)
    (h : ∀ x, disk' x = disk x ∨ x ∈ lh ∧ disk' x = v x) : Durable sb v disk' := by
  have hlt : ∀ x ∈ lh, x < sb.start ∧ x ≠ 1 := by
    intro x hx
    obtain ⟨i, hi⟩ := List.mem_iff_getElem?.1 hx
    exact ⟨(hcopy i x hi).1, (hcopy i x hi).2.1⟩
  have hout : ∀ x, x ∉ lh → disk' x = disk x := fun x hx => (h x).resolve_right fun h => hx h.1
  have hlog : ∀ i, disk' (sb.start + i) = disk (sb.start + i) := by
    intro i
    refine hout _ fun hmem => ?_
    have := (hlt _ hmem).1
    omega
  refine ⟨?_, lh, ?_, hlen, fun i s hi => ?_, fun s hs hn => ?_⟩
  · rw [hout 1 fun h => (hlt 1 h).2 rfl, hsuper]
  · rw [← hhead]
    exact congrArg getHead (hlog 0)
  · obtain ⟨h₁, h₂, h₃⟩ := hcopy i s hi
    exact ⟨h₁, h₂, (hlog (i + 1)).trans h₃⟩
  · rw [hout s hn, hrest s hs hn]

/-- Between two transactions: the disk has everything, and the log is empty. -/
structure Quiet (sb : Superblock) (v : Blocks) (m : Machine) : Prop where
  holds : Holds m m.disk ∅ ∅
  log : m.log = ⟨sb.start, sb.nlog, false, []⟩
  head : getHead (m.disk sb.start) = some []
  super : .ofSector (m.disk 1) = sb
  home : ∀ s, s < sb.start → m.disk s = v s

theorem Holds.congr (H : Holds m w held dirty) (hc : m'.cache = m.cache) (hd : m'.disk = m.disk) :
    Holds m' w held dirty where
  length := hc ▸ H.length
  nodup := hc ▸ H.nodup
  blank := hc ▸ H.blank
  flags := hc ▸ H.flags
  cached := hc ▸ H.cached
  clean := hd ▸ H.clean

theorem holds_boot (disk : Blocks) (power : Option ℕ) : Holds (boot disk power) disk ∅ ∅ := by
  have hblank : ∀ b ∈ (boot disk power).cache, b = .blank := fun b => List.eq_of_mem_replicate
  refine ⟨List.length_replicate, ?_, fun b hb _ => ?_, fun b hb s hs => ?_, fun s hs => ?_,
    fun _ _ => rfl⟩
  · rw [sectors, boot, List.filterMap_replicate_of_none rfl]
    exact List.nodup_nil
  · rw [hblank b hb]
    exact ⟨rfl, rfl⟩
  · rw [hblank b hb] at hs
    cases hs
  · simp at hs

theorem Holds.view_eq (H : Holds m w held ∅) : w = m.disk :=
  funext fun s => H.clean s (Finset.notMem_empty s)

theorem Holds.writeHead_nil (H : Holds m m.disk ∅ ∅) (hl : m.log.lh = []) :
    EnsuresOr (fun m' => SameLog m m' ∧ Holds m' m'.disk ∅ ∅ ∧
        getHead (m'.disk m.log.start) = some [] ∧
        ∀ x, x ≠ m.log.start → m'.disk x = m.disk x)
      (Fails m (· = m.disk)) (writeHead m) := by
  refine (H.rewrite (x := m.log.start) (Finset.notMem_empty _) (by simp [NBUF])
    (putHead m.log.lh)).imp
      (fun m' ⟨hsame, hdisk, H'⟩ => ⟨hsame, ?_, ?_, fun x hx => ?_⟩) fun _ => id
  · rwa [← hdisk, Finset.erase_empty] at H'
  · rw [hdisk, Function.update_self, hl]
    exact getHead_putHead (Nat.zero_le _) (List.forall_mem_nil _) _
  · rw [hdisk, Function.update_of_ne hx]

/-- The second half of `commit_trans`, and of recovery: the blocks of the log are copied to their
places, and the log is cleared. -/
theorem Holds.install_clear (H : Holds m w ∅ dirty) (hsb : 1 < sb.start)
    (hstart : m.log.start = sb.start) (hdirty : ∀ s ∈ dirty, s ∈ m.log.lh)
    (hsuper : .ofSector (m.disk 1) = sb) (hhead : getHead (m.disk sb.start) = some m.log.lh)
    (hlen : m.log.lh.length < NBUF)
    (hcopy : ∀ i s, m.log.lh[i]? = some s →
      s < sb.start ∧ s ≠ 1 ∧ m.disk (sb.start + i + 1) = v s)
    (hrest : ∀ s, s < sb.start → s ∉ m.log.lh → m.disk s = v s) :
    EnsuresOr (fun m' => m'.log = { m.log with lh := [] } ∧ (m.power = none → m'.power = none) ∧
        Holds m' m'.disk ∅ ∅ ∧ getHead (m'.disk sb.start) = some [] ∧
        .ofSector (m'.disk 1) = sb ∧ ∀ s, s < sb.start → m'.disk s = v s)
      (Fails m (Durable sb v)) (installTrans m >>= fun m => writeHead (clearHead m)) := by
  have hlt : ∀ s ∈ m.log.lh, s < sb.start ∧ s ≠ 1 := by
    intro s hs
    obtain ⟨i, hi⟩ := List.mem_iff_getElem?.1 hs
    exact ⟨(hcopy i s hi).1, (hcopy i s hi).2.1⟩
  have hsub : dirty ∪ m.log.lh.toFinset = m.log.lh.toFinset :=
    Finset.union_eq_right.2 fun s hs => List.mem_toFinset.2 (hdirty s hs)
  have hcopy' : ∀ i s, m.log.lh[i]? = some s →
      s < m.log.start ∧ w (m.log.start + (0 + i) + 1) = v s := by
    intro i s hi
    obtain ⟨h₁, -, h₃⟩ := hcopy i s hi
    rw [hstart, Nat.zero_add, H.clean _ fun h => ?_]
    · exact ⟨h₁, h₃⟩
    · have := (hlt _ (hdirty _ h)).1
      omega
  have hinst := H.installFrom hcopy' (fun s hs => hstart ▸ (hlt s (hdirty s hs)).1)
    (by rw [hsub]; exact lt_of_le_of_lt (List.toFinset_card_le _) hlen)
  refine .bind (hinst.imp (fun _ => id) fun e he => he.imp id fun d hd => ?_)
    fun m₁ ⟨hsame, hdisk, H₁⟩ => ?_
  · exact .of_installing hsuper hhead hlen hcopy hrest hd
  · have hclean : dirty \ m.log.lh.toFinset = ∅ :=
      Finset.sdiff_eq_empty_iff_subset.2 fun s hs => List.mem_toFinset.2 (hdirty s hs)
    rw [hclean] at H₁
    have hview := H₁.view_eq
    rw [hview] at H₁
    have hlog : (clearHead m₁).log.start = sb.start := (congrArg Log.start hsame.1).trans hstart
    have hclear := Holds.writeHead_nil (m := clearHead m₁) (H₁.congr rfl rfl) rfl
    rw [hlog] at hclear
    refine hclear.imp (fun m₂ ⟨hsame', H₂, hhead', hdisk'⟩ => ?_)
      fun e he => he.imp hsame.2 fun d hd => ?_
    · have hplace : ∀ s, s < sb.start → m₂.disk s = v s := by
        intro s hs
        rw [hdisk' s hs.ne]
        change m₁.disk s = v s
        rw [hdisk, patch]
        split_ifs with h
        · rfl
        · exact hrest s hs h
      refine ⟨?_, fun hp => hsame'.2 (hsame.2 hp), H₂, hhead', ?_, hplace⟩
      · rw [hsame'.1, clearHead, hsame.1]
      · have h1 : 1 ∉ m.log.lh := fun h => (hlt 1 h).2 rfl
        rw [hplace 1 hsb, ← hrest 1 hsb h1, hsuper]
    · refine .of_installing hsuper hhead hlen hcopy hrest fun x => ?_
      rw [hd]
      change m₁.disk x = _ ∨ _ ∧ m₁.disk x = _
      rw [hdisk, patch]
      split_ifs with h
      · exact .inr ⟨h, rfl⟩
      · exact .inl rfl

/-- `recover_from_log` on a durable disk; it may be interrupted. -/
theorem recoverFromLog_spec (H : Holds m m.disk ∅ ∅) (hsb : 1 < sb.start)
    (hstart : m.log.start = sb.start) (hsize : m.log.size = sb.nlog) (hbusy : m.log.busy = false)
    (D : Durable sb v m.disk) :
    EnsuresOr (fun m' => Quiet sb v m' ∧ (m.power = none → m'.power = none))
      (Fails m (Durable sb v)) (recoverFromLog m) := by
  obtain ⟨hsuper, lh, hhead, hlen, hcopy, hrest⟩ := D
  -- the header is read
  obtain ⟨c, hc, H₁⟩ := H.bread (s := m.log.start) (Finset.notMem_empty _) (by simp [NBUF])
  have H₂ : Holds { m with cache := c, log := { m.log with lh := lh } } m.disk _ ∅ :=
    H₁.congr rfl rfl
  obtain ⟨c', hc', H₃⟩ := H₂.brelse (s := m.log.start) (by simp)
  have hread : readHead m = .ok { m with cache := c', log := { m.log with lh := lh } } := by
    rw [readHead, hc]
    simp only [bind, Except.bind, hstart, hhead]
    rw [← hstart]
    exact hc'
  rw [recoverFromLog, hread]
  rw [Finset.erase_insert (Finset.notMem_empty _)] at H₃
  refine (H₃.install_clear hsb hstart (by simp) hsuper hhead hlen hcopy hrest).imp
    (fun m' ⟨hlog, hpow, H', hhead', hsuper', hhome⟩ => ⟨⟨H', ?_, hhead', hsuper', hhome⟩, hpow⟩)
    fun _ => id
  rw [hlog, ← hstart, ← hsize, ← hbusy]

/-- When the machine is switched on with a durable disk. -/
theorem initlog_spec (hsb : 1 < sb.start) (D : Durable sb v disk) (power : Option ℕ) :
    EnsuresOr (fun m => Quiet sb v m ∧ (power = none → m.power = none))
      (Fails (boot disk power) (Durable sb v)) (initlog (boot disk power)) := by
  obtain ⟨c, c', hc, hc', H⟩ := (holds_boot disk power).bread_brelse (x := 1)
    (Finset.notMem_empty _) (by simp [NBUF])
  have hread : readsb (boot disk power) = .ok (sb, { boot disk power with cache := c' }) := by
    rw [readsb, hc]
    simp only [bind, Except.bind, hc', D.super]
  rw [initlog, hread]
  exact recoverFromLog_spec (H.congr rfl rfl) hsb rfl rfl rfl D

end Fs

end Xv6Editor
