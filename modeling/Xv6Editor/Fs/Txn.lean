import Xv6Editor.CMem.Prog
import Xv6Editor.Fs.Log

/-!
# Transactions

The code between `begin_trans` and `commit_trans` reaches the disk by `bread`, `log_write` and
`brelse`.  It is a `Prog` over these commands, and it can be run in two ways: `kernel` is the code
of `bio.c` and `log.c`, and `Txn.exec` is what it is for: the blocks are a function that `log_write`
changes at once.  The second one keeps account of the buffers that are held and the blocks that are
logged, since the kernel panics when it runs out of either.

* `Active.follows` : the kernel follows `Txn.exec`, and if the power fails in the middle of a
  transaction nothing has happened to the blocks.
* `Quiet.transaction` : a whole transaction.  If the power fails, all of it has happened or nothing
  of it.
-/

namespace Xv6Editor

namespace Fs

/-- What a transaction asks of the kernel. -/
inductive Cmd
  | bread (s : ℕ)
  | logWrite (s : ℕ) (data : Sector)
  | brelse (s : ℕ)
  | panic (p : Panic)

/-- What it gets. -/
abbrev Cmd.Ans : Cmd → Type
  | .bread _ => Sector
  | .logWrite _ _ => Unit
  | .brelse _ => Unit
  | .panic _ => Empty

/-- The code of the kernel above the log. -/
abbrev Code (α : Type) := Prog Cmd Cmd.Ans α

/-- The commands as `bio.c` and `log.c` serve them. -/
def kernel : ∀ c : Cmd, Machine → Except Stop (c.Ans × Machine)
  | .bread s, m => Fs.bread s m
  | .logWrite s data, m => do .ok ((), ← Fs.logWrite s data m)
  | .brelse s, m => do .ok ((), ← Fs.brelse s m)
  | .panic p, _ => .error (.panic p)

/-- `begin_trans()`, the code and `commit_trans()`. -/
def transaction {α : Type} (p : Code α) (m : Machine) : Except Stop (α × Machine) := do
  let m ← beginTrans m
  let (a, m) ← p.run kernel m
  let m ← commitTrans m
  .ok (a, m)

/-! ### What a transaction does -/

/-- The blocks in a transaction, the sectors whose buffers are held and those that are logged. -/
structure Txn where
  view : Blocks
  held : Finset ℕ
  logged : List ℕ

namespace Txn

/-- The transaction when it begins. -/
def start (v : Blocks) : Txn := ⟨v, ∅, []⟩

/-- The sectors whose buffers cannot be used for anything else. -/
def pinned (t : Txn) : Finset ℕ := t.held ∪ t.logged.toFinset

/-- `log_write` adds the sector to the log, unless it is there. -/
def note (s : ℕ) (logged : List ℕ) : List ℕ := if s ∈ logged then logged else logged ++ [s]

/-- The commands on the blocks themselves, with a log of `nlog` blocks. -/
def exec (nlog : ℕ) : ∀ c : Cmd, Txn → Except Stop (c.Ans × Txn)
  | .bread s, t =>
    if s ∈ t.held then .error .asleep
    else if NBUF < (insert s t.pinned).card then .error (.panic .noBuffers)
    else .ok (t.view s, { t with held := insert s t.held })
  | .logWrite s data, t =>
    if LOGSIZE ≤ t.logged.length ∨ nlog ≤ t.logged.length + 1 then .error (.panic .tooBig)
    else if s ∉ t.held then .error .fault
    else if NBUF ≤ t.pinned.card then .error (.panic .noBuffers)
    else .ok ((), ⟨Function.update t.view s data, t.held, note s t.logged⟩)
  | .brelse s, t =>
    if s ∈ t.held then .ok ((), { t with held := t.held.erase s }) else .error .fault
  | .panic p, _ => .error (.panic p)

end Txn

/-- The sectors below the log, and the superblock is not written. -/
def Home (sb : Superblock) : Cmd → Prop
  | .bread s => s < sb.start
  | .logWrite s _ => s < sb.start ∧ s ≠ 1
  | .brelse _ => True
  | .panic _ => True

/-- The power failed, which it does not do if `on`, with a disk of which `C` holds. -/
def Cut (on : Prop) (C : Blocks → Prop) (e : Stop) : Prop := ¬on ∧ ∃ d, e = .crash d ∧ C d

/-- An error stands for itself, and a fault for anything. -/
def SameStop (e e' : Stop) : Prop := e = .fault ∨ e' = e

/-- In the middle of a transaction: `d` are the blocks when it began. -/
structure Active (on : Prop) (sb : Superblock) (d : Blocks) (t : Txn) (m : Machine) : Prop where
  holds : ∃ w, Holds m w t.held t.logged.toFinset ∧ ∀ s, s < sb.start → w s = t.view s
  log : m.log = ⟨sb.start, sb.nlog, true, t.logged⟩
  head : getHead (m.disk sb.start) = some []
  super : .ofSector (m.disk 1) = sb
  home : ∀ s, s < sb.start → m.disk s = d s
  copies : ∀ i s, t.logged[i]? = some s → m.disk (sb.start + i + 1) = t.view s
  nodup : t.logged.Nodup
  logged_lt : ∀ s ∈ t.logged, s < sb.start ∧ s ≠ 1
  length_lt : t.logged.length < NBUF
  held_lt : ∀ s ∈ t.held, s < sb.start
  power : on → m.power = none

variable {on : Prop} {m m' : Machine} {v d : Blocks} {t t' : Txn} {s : ℕ} {sb : Superblock}
  {data : Sector} {α : Type}

theorem Fails.cut {C : Blocks → Prop} {e : Stop} (h : Fails m C e) (hp : on → m.power = none) :
    Cut on C e :=
  ⟨fun hon => h.1 (hp hon), h.2⟩

theorem Cut.imp {C C' : Blocks → Prop} {e : Stop} (h : Cut on C e) (hC : ∀ d, C d → C' d) :
    Cut on C' e := by
  obtain ⟨hon, d, he, hd⟩ := h
  exact ⟨hon, d, he, hC d hd⟩

namespace Active

/-- The log is empty on the disk: nothing has happened yet. -/
theorem durable (A : Active on sb d t m) : Durable sb d m.disk := by
  refine ⟨A.super, [], A.head, Nat.succ_pos _, fun i s hi => ?_, fun s hs _ => A.home s hs⟩
  cases hi

theorem bread_follows (A : Active on sb d t m) (hs : s < sb.start) :
    Prog.Follows (Active on sb d) SameStop (Cut on (Durable sb d))
      (Txn.exec sb.nlog (.bread s) t) (kernel (.bread s) m) := by
  obtain ⟨w, H, hw⟩ := A.holds
  rw [Txn.exec]
  split_ifs with h₁ h₂
  · rw [kernel, H.bread_held h₁]
    exact .error (.inl (.inr rfl))
  · rw [kernel, H.bread_full h₂]
    exact .error (.inl (.inr rfl))
  · obtain ⟨c, hc, H'⟩ := H.bread h₁ (by rw [Txn.pinned] at h₂; omega)
    rw [kernel, hc]
    refine .ok ⟨hw s hs, { A with holds := ⟨w, H', hw⟩, held_lt := fun x hx => ?_ }⟩
    rcases Finset.mem_insert.1 hx with rfl | hx
    · exact hs
    · exact A.held_lt x hx

theorem brelse_follows (A : Active on sb d t m) :
    Prog.Follows (Active on sb d) SameStop (Cut on (Durable sb d))
      (Txn.exec sb.nlog (.brelse s) t) (kernel (.brelse s) m) := by
  obtain ⟨w, H, hw⟩ := A.holds
  rw [Txn.exec]
  split_ifs with h₁
  · obtain ⟨c, hc, H'⟩ := H.brelse h₁
    rw [kernel, hc]
    refine .ok ⟨rfl, { A with holds := ⟨w, H', hw⟩, held_lt := fun x hx => ?_ }⟩
    exact A.held_lt x (Finset.mem_of_mem_erase hx)
  · rw [kernel]
    rcases H.brelse_not_held h₁ with h | h
    · rw [h]
      exact .error (.inl (.inl rfl))
    · rw [h]
      exact .error (.inl (.inl rfl))

theorem note_getElem? {logged : List ℕ} (hn : logged.Nodup) {j x : ℕ}
    (h : (Txn.note s logged)[j]? = some x) :
    (x = s → j = logged.idxOf s) ∧ (x ≠ s → j ≠ logged.idxOf s ∧ logged[j]? = some x) := by
  unfold Txn.note at h
  split_ifs at h with hs
  · have hi : logged[logged.idxOf s]? = some s := List.getElem?_idxOf hs
    have hj : ∀ y, logged[j]? = some y → (y = s ↔ j = logged.idxOf s) := by
      intro y hy
      constructor
      · rintro rfl
        obtain ⟨hlt, -⟩ := List.getElem?_eq_some_iff.1 hy
        exact (List.getElem?_inj hlt hn).1 (hy.trans hi.symm)
      · rintro rfl
        exact Option.some.inj (hy.symm.trans hi)
    exact ⟨(hj x h).1, fun hne => ⟨mt (hj x h).2 hne, h⟩⟩
  · have hi : logged.idxOf s = logged.length := List.idxOf_eq_length hs
    rw [hi]
    rcases lt_trichotomy j logged.length with hlt | rfl | hgt
    · rw [List.getElem?_append_left hlt] at h
      have hx : x ≠ s := fun hxs => hs (hxs ▸ List.mem_of_getElem? h)
      exact ⟨fun hxs => absurd hxs hx, fun _ => ⟨hlt.ne, h⟩⟩
    · rw [List.getElem?_concat_length] at h
      exact ⟨fun _ => rfl, fun hne => absurd (Option.some.inj h).symm hne⟩
    · rw [List.getElem?_eq_none (by simp; omega)] at h
      cases h

theorem mem_note {logged : List ℕ} {x : ℕ} : x ∈ Txn.note s logged ↔ x = s ∨ x ∈ logged := by
  unfold Txn.note
  split_ifs with h
  · refine ⟨.inr, ?_⟩
    rintro (rfl | hx)
    · exact h
    · exact hx
  · rw [List.mem_append, List.mem_singleton, or_comm]

theorem toFinset_note (s : ℕ) (logged : List ℕ) :
    (Txn.note s logged).toFinset = insert s logged.toFinset := by
  ext x
  rw [List.mem_toFinset, mem_note, Finset.mem_insert, List.mem_toFinset]

theorem nodup_note {logged : List ℕ} (hn : logged.Nodup) : (Txn.note s logged).Nodup := by
  unfold Txn.note
  split_ifs with h
  · exact hn
  · refine List.nodup_append.2 ⟨hn, List.nodup_singleton s, fun x hx y hy hxy => h ?_⟩
    rw [← List.eq_of_mem_singleton hy, ← hxy]
    exact hx

theorem ite_idxOf (s : ℕ) (logged : List ℕ) :
    (if logged.idxOf s = logged.length then logged ++ [s] else logged) = Txn.note s logged := by
  unfold Txn.note
  by_cases h : s ∈ logged
  · rw [if_neg (List.idxOf_lt_length_of_mem h).ne, if_pos h]
  · rw [if_pos (List.idxOf_eq_length h), if_neg h]

theorem notMem_pinned (A : Active on sb d t m) (i : ℕ) : sb.start + i ∉ t.pinned := by
  rw [Txn.pinned, Finset.mem_union, List.mem_toFinset]
  rintro (h | h)
  · have := A.held_lt _ h
    omega
  · have := (A.logged_lt _ h).1
    omega

/-- `log_write`, with room for the sector in the log and for a buffer. -/
theorem logWrite (A : Active on sb d t m) (hs : s < sb.start ∧ s ≠ 1) (data : Sector)
    (hbig : ¬(LOGSIZE ≤ t.logged.length ∨ sb.nlog ≤ t.logged.length + 1)) (hheld : s ∈ t.held)
    (hfull : t.pinned.card < NBUF) :
    EnsuresOr (Active on sb d ⟨Function.update t.view s data, t.held, Txn.note s t.logged⟩)
      (Cut on (Durable sb d)) (Fs.logWrite s data m) := by
  obtain ⟨w, H, hw⟩ := A.holds
  have hl : sb.start + t.logged.idxOf s + 1 ∉ t.pinned := A.notMem_pinned (t.logged.idxOf s + 1)
  have hwrite := (H.rewrite (fun h => hl (Finset.mem_union_left _ h))
    ((Finset.card_insert_le _ _).trans hfull) fun _ => data).imp (fun _ => id) fun e he =>
      (he.cut A.power).imp fun d' hd => (hd ▸ A.durable : Durable sb d d')
  rw [Finset.erase_eq_of_notMem fun h => hl (Finset.mem_union_right _ h)] at hwrite
  rw [Fs.logWrite, A.log, if_neg hbig, if_neg (by simp)]
  refine .bind hwrite fun m₁ ⟨hsame, hdisk, H₁⟩ => ?_
  obtain ⟨c, hc, H₂⟩ := H₁.enter hheld (t.logged.idxOf s) data
  have hlog : m₁.log = ⟨sb.start, sb.nlog, true, t.logged⟩ := hsame.1.trans A.log
  rw [hlog] at hc
  simp only [ite_idxOf] at hc
  rw [hc]
  have hlow : ∀ x, x ≤ sb.start → m₁.disk x = m.disk x := by
    intro x hx
    rw [hdisk, Function.update_of_ne (by omega)]
  have hview : ∀ x, x < sb.start →
      Function.update (Function.update w (sb.start + t.logged.idxOf s + 1) data) s data x =
        Function.update t.view s data x := by
    intro x hx
    by_cases hxs : x = s
    · rw [hxs, Function.update_self, Function.update_self]
    · rw [Function.update_of_ne hxs, Function.update_of_ne hxs, Function.update_of_ne (by omega),
        hw x hx]
  have hlen : (Txn.note s t.logged).length < NBUF := by
    rw [← List.toFinset_card_of_nodup (nodup_note A.nodup), toFinset_note]
    refine lt_of_le_of_lt (Finset.card_le_card (Finset.insert_subset ?_ ?_)) hfull
    · exact Finset.mem_union_left _ hheld
    · exact Finset.subset_union_right
  refine .ok
    { holds := ⟨_, toFinset_note s t.logged ▸ H₂ _ rfl rfl, hview⟩
      log := rfl
      head := (congrArg getHead (hlow _ le_rfl)).trans A.head
      super := (congrArg Superblock.ofSector (hlow 1 (by omega))).trans A.super
      home := fun x hx => (hlow x hx.le).trans (A.home x hx)
      copies := fun j x hj => ?_
      nodup := nodup_note A.nodup
      logged_lt := fun x hx => ?_
      length_lt := hlen
      held_lt := A.held_lt
      power := fun hon => hsame.2 (A.power hon) }
  · -- the copy that was written, and the others
    obtain ⟨hself, hother⟩ := note_getElem? A.nodup hj
    change m₁.disk _ = Function.update t.view s data x
    rw [hdisk]
    by_cases hxs : x = s
    · rw [hself hxs, hxs, Function.update_self, Function.update_self]
    · obtain ⟨hne, hold⟩ := hother hxs
      rw [Function.update_of_ne hxs, Function.update_of_ne (by omega), A.copies j x hold]
  · rcases mem_note.1 hx with rfl | hx
    · exact hs
    · exact A.logged_lt x hx

theorem logWrite_full (A : Active on sb d t m) (data : Sector)
    (hbig : ¬(LOGSIZE ≤ t.logged.length ∨ sb.nlog ≤ t.logged.length + 1))
    (hfull : NBUF ≤ t.pinned.card) :
    Fs.logWrite s data m = .error (.panic .noBuffers) := by
  obtain ⟨w, H, -⟩ := A.holds
  have hl : sb.start + t.logged.idxOf s + 1 ∉ t.pinned := A.notMem_pinned (t.logged.idxOf s + 1)
  have hcard : NBUF < (insert (sb.start + t.logged.idxOf s + 1) t.pinned).card := by
    rw [Finset.card_insert_of_notMem hl]
    omega
  rw [Fs.logWrite, A.log, if_neg hbig, if_neg (by simp)]
  simp only [rewrite, H.bread_full hcard, bind, Except.bind]

theorem logWrite_not_held (A : Active on sb d t m) (data : Sector) (hheld : s ∉ t.held) :
    EnsuresOr (fun _ => False) (fun _ => True) (Fs.logWrite s data m) := by
  obtain ⟨w, H, -⟩ := A.holds
  have hl : sb.start + t.logged.idxOf s + 1 ∉ t.pinned := A.notMem_pinned (t.logged.idxOf s + 1)
  by_cases hbig : LOGSIZE ≤ t.logged.length ∨ sb.nlog ≤ t.logged.length + 1
  · rw [Fs.logWrite, A.log, if_pos hbig]
    exact .error trivial
  by_cases hfull : NBUF ≤ t.pinned.card
  · rw [A.logWrite_full data hbig hfull]
    exact .error trivial
  · have hwrite := (H.rewrite (fun h => hl (Finset.mem_union_left _ h))
      ((Finset.card_insert_le _ _).trans (not_le.1 hfull)) fun _ => data).imp (fun _ => id)
        fun _ _ => trivial
    rw [Fs.logWrite, A.log, if_neg hbig, if_neg (by simp)]
    refine .bind hwrite fun m₁ ⟨_, _, H₁⟩ => ?_
    rw [H₁.enter_not_held hheld]
    exact .error trivial

theorem logWrite_follows (A : Active on sb d t m) (hs : s < sb.start ∧ s ≠ 1) (data : Sector) :
    Prog.Follows (Active on sb d) SameStop (Cut on (Durable sb d))
      (Txn.exec sb.nlog (.logWrite s data) t) (kernel (.logWrite s data) m) := by
  rw [Txn.exec, kernel]
  split_ifs with hbig hheld hfull
  · rw [Fs.logWrite, A.log, if_pos hbig]
    exact .error (.inl (.inr rfl))
  · rw [A.logWrite_full data hbig hfull]
    exact .error (.inl (.inr rfl))
  · exact EnsuresOr.bind (A.logWrite hs data hbig hheld (not_le.1 hfull))
      fun m' A' => .ok ⟨rfl, A'⟩
  · refine EnsuresOr.bind ((A.logWrite_not_held data hheld).imp (fun _ => id) fun _ _ => ?_)
      fun _ hf => hf.elim
    exact .inl (.inl rfl)

/-- The kernel does what the transaction asks for, until the power fails. -/
theorem follows (c : Cmd) (t : Txn) (m : Machine) (hc : Home sb c) (A : Active on sb d t m) :
    Prog.Follows (Active on sb d) SameStop (Cut on (Durable sb d)) (Txn.exec sb.nlog c t)
      (kernel c m) := by
  cases c with
  | bread s => exact A.bread_follows hc
  | logWrite s data => exact A.logWrite_follows hc data
  | brelse s => exact A.brelse_follows
  | panic p => exact .error (.inl (.inr rfl))

/-- What is in the log comes to the disk, and the log is cleared. -/
theorem commitLog (A : Active on sb d t m) (hsb : 1 < sb.start) (hheld : t.held = ∅) :
    EnsuresOr (fun m' => m'.log = ⟨sb.start, sb.nlog, true, []⟩ ∧ (on → m'.power = none) ∧
        Holds m' m'.disk ∅ ∅ ∧ getHead (m'.disk sb.start) = some [] ∧
        .ofSector (m'.disk 1) = sb ∧ ∀ s, s < sb.start → m'.disk s = t.view s)
      (Cut on fun d' => Durable sb d d' ∨ Durable sb t.view d') (Fs.commitLog m) := by
  obtain ⟨w, H, hw⟩ := A.holds
  rw [hheld] at H
  have hlh : m.log.lh = t.logged := by rw [A.log]
  have hstart : m.log.start = sb.start := by rw [A.log]
  have hclean : ∀ s, s < sb.start → s ∉ t.logged → m.disk s = t.view s := by
    intro s hs hn
    rw [← hw s hs, H.clean s fun h => hn (List.mem_toFinset.1 h)]
  rw [Fs.commitLog, hlh]
  by_cases hnil : t.logged = []
  · rw [if_pos hnil]
    rw [hnil] at H hclean
    have hview : w = m.disk := Holds.view_eq H
    rw [hview] at H
    have hlog : m.log = ⟨sb.start, sb.nlog, true, []⟩ := by rw [A.log, hnil]
    exact .ok ⟨hlog, A.power, H, A.head, A.super, fun s hs => hclean s hs List.not_mem_nil⟩
  · rw [if_neg hnil]
    have hpin : sb.start ∉ t.logged.toFinset := fun h => A.notMem_pinned 0 (by simp [Txn.pinned, h])
    have hroom : (insert m.log.start (∅ ∪ t.logged.toFinset)).card ≤ NBUF := by
      rw [Finset.empty_union]
      refine (Finset.card_insert_le _ _).trans (Nat.succ_le_of_lt (lt_of_le_of_lt ?_ A.length_lt))
      exact List.toFinset_card_le _
    -- until the header is written, nothing has happened
    have hhead : EnsuresOr _ (Cut on fun d' => Durable sb d d' ∨ Durable sb t.view d')
        (writeHead m) :=
      (H.rewrite (Finset.notMem_empty _) hroom (putHead m.log.lh)).imp (fun _ => id)
        fun e he => (he.cut A.power).imp fun d' hd => .inl (hd ▸ A.durable)
    refine .bind hhead fun m₁ ⟨hsame, hdisk, H₁⟩ => ?_
    rw [hstart, hlh] at hdisk H₁
    rw [Finset.erase_eq_of_notMem hpin] at H₁
    have hlh₁ : m₁.log.lh = t.logged := by rw [hsame.1, hlh]
    have hother : ∀ x, x ≠ sb.start → m₁.disk x = m.disk x := by
      intro x hx
      rw [hdisk, Function.update_of_ne hx]
    have hsize : sb.start < 2 ^ 32 := by
      rw [← A.super]
      exact lt_of_le_of_lt (Nat.sub_le _ _) (Block.word_lt _ 0)
    -- from then on, everything
    refine (H₁.install_clear hsb (by rw [hsame.1, hstart]) (fun s hs => ?_) ?_ ?_ ?_
      (fun i s hi => ?_) fun s hs hn => ?_).imp
        (fun m' ⟨hlog, hpow, hrest⟩ => ⟨?_, fun hon => hpow (hsame.2 (A.power hon)), hrest⟩)
        fun e he => (he.cut fun hon => hsame.2 (A.power hon)).imp fun _ => .inr
    · rw [hlh₁]
      exact List.mem_toFinset.1 hs
    · rw [hother 1 hsb.ne, A.super]
    · rw [hdisk, Function.update_self, hlh₁]
      refine getHead_putHead ?_ (fun s hs => (A.logged_lt s hs).1.trans hsize) _
      exact Nat.le_of_lt A.length_lt
    · rw [hlh₁]
      exact A.length_lt
    · rw [hlh₁] at hi
      obtain ⟨h₁, h₂⟩ := A.logged_lt s (List.mem_of_getElem? hi)
      exact ⟨h₁, h₂, by rw [hother _ (by omega), A.copies i s hi]⟩
    · rw [hlh₁] at hn
      rw [hother s hs.ne, hclean s hs hn]
    · rw [hlog, hsame.1, A.log]

theorem commitTrans (A : Active on sb d t m) (hsb : 1 < sb.start) (hheld : t.held = ∅) :
    EnsuresOr (fun m' => Quiet sb t.view m' ∧ (on → m'.power = none))
      (Cut on fun d' => Durable sb d d' ∨ Durable sb t.view d') (Fs.commitTrans m) := by
  refine .bind (A.commitLog hsb hheld)
    fun m' ⟨hlog, hpow, H, hhead, hsuper, hhome⟩ => .ok ⟨?_, hpow⟩
  exact ⟨H.congr rfl rfl, by rw [hlog], hhead, hsuper, hhome⟩

end Active

/-! ### Whole transactions -/

theorem Quiet.beginTrans (Q : Quiet sb v m) (hp : on → m.power = none) :
    ∃ m', Fs.beginTrans m = .ok m' ∧ Active on sb v (.start v) m' := by
  have hbusy : m.log.busy = false := by rw [Q.log]
  refine ⟨_, by rw [Fs.beginTrans, hbusy, if_neg Bool.false_ne_true], ?_⟩
  exact
    { holds := ⟨m.disk, Q.holds.congr rfl rfl, Q.home⟩
      log := by rw [Q.log]; rfl
      head := Q.head
      super := Q.super
      home := Q.home
      copies := fun i s hi => by cases hi
      nodup := List.nodup_nil
      logged_lt := List.forall_mem_nil _
      length_lt := Nat.succ_pos _
      held_lt := fun s hs => absurd hs (Finset.notMem_empty s)
      power := hp }

/-- A transaction that comes to its end: all of it happens.  If the power fails, all of it has
happened or nothing of it. -/
theorem Quiet.transaction (Q : Quiet sb v m) (hsb : 1 < sb.start) (hp : on → m.power = none)
    {p : Code α} {a : α} (hr : p.Runs (Home sb) (Txn.exec sb.nlog) (.start v) a t)
    (hheld : t.held = ∅) :
    EnsuresOr (fun r => r.1 = a ∧ Quiet sb t.view r.2 ∧ (on → r.2.power = none))
      (Cut on fun d' => Durable sb v d' ∨ Durable sb t.view d') (Fs.transaction p m) := by
  obtain ⟨m₁, hm₁, A₁⟩ := Q.beginTrans hp
  have hrun := Prog.run_follows Active.follows p A₁ hr.2
  rw [hr.1] at hrun
  rw [Fs.transaction, hm₁]
  change EnsuresOr _ _ (p.run kernel m₁ >>= _)
  refine .bind (EnsuresOr.imp hrun (fun _ => id) fun e he => Cut.imp he fun _ => .inl)
    fun y ⟨ha, A₂⟩ => ?_
  exact .bind (A₂.commitTrans hsb hheld) fun m₃ ⟨Q₃, hp₃⟩ => .ok ⟨ha, Q₃, hp₃⟩

/-- A transaction that does not come to its end: nothing of it happens. -/
theorem Quiet.transaction_error (Q : Quiet sb v m) (hp : on → m.power = none) {p : Code α}
    {e : Stop} (hm : p.Meets (Home sb) (Txn.exec sb.nlog) (.start v))
    (hr : p.run (Txn.exec sb.nlog) (.start v) = .error e) :
    EnsuresOr (fun _ => False) (fun e' => SameStop e e' ∨ Cut on (Durable sb v) e')
      (Fs.transaction p m) := by
  obtain ⟨m₁, hm₁, A₁⟩ := Q.beginTrans hp
  have hrun := Prog.run_follows Active.follows p A₁ hm
  rw [hr] at hrun
  rw [Fs.transaction, hm₁]
  change EnsuresOr _ _ (p.run kernel m₁ >>= _)
  exact .bind hrun fun _ hf => hf.elim

end Fs

end Xv6Editor
