import Xv6Editor.CMem.Ring
import Xv6Editor.Console.Model

/-!
# The console as a queue

What the three counters of `console.c` mean: a queue of characters that may be read, `committed`,
and the line being typed, `pending`, together never more than 128 characters.

* `Queue.key`, `Queue.readLoop` : `consoleintr` and `consoleread` on a queue.
* `Rep s q` : the ring buffer `s` holds the queue `q`.
* `rep_key`, `rep_readLoop` : the code does on the buffer what these do on the queue.
* `Sim.run` : two devices that agree in this way cannot be told apart by the processes, whatever
  is typed and however interrupts and processes interleave.

The counters run freely and wrap around, so the queue says nothing about their values.
-/

namespace Xv6Editor

namespace Console

/-- The size of the buffer. -/
def capacity : ℕ := 128

/-- A console as the typist and the readers see it. -/
@[ext] structure Queue where
  /-- What may be read. -/
  committed : List UInt8
  /-- The line being typed. -/
  pending : List UInt8
  /-- The line being typed has not been ended. -/
  plain : nl ∉ pending
  /-- There is room for all of it. -/
  room : committed.length + pending.length ≤ capacity

namespace Queue

/-- The console at boot. -/
def empty : Queue := ⟨[], [], by simp, by simp⟩

/-- The number of characters in the buffer. -/
def length (q : Queue) : ℕ := q.committed.length + q.pending.length

/-- Without the line being typed. -/
def kill (q : Queue) : Queue := ⟨q.committed, [], by simp, by
  have := q.room
  simp only [List.length_nil]
  omega⟩

/-- Without the last character of the line being typed. -/
def erase (q : Queue) : Queue := ⟨q.committed, q.pending.dropLast,
  fun h => q.plain (List.dropLast_subset _ h), by
  have := q.room
  rw [List.length_dropLast]
  omega⟩

/-- One more character that ends the line. -/
def commit (q : Queue) (c : UInt8) (h : q.length < capacity) : Queue :=
  ⟨q.committed ++ (q.pending ++ [c]), [], by simp, by
    unfold length at h
    simp only [List.length_append, List.length_singleton, List.length_nil]
    omega⟩

/-- One more character in the line. -/
def type (q : Queue) (c : UInt8) (h : q.length < capacity) (hc : c ≠ nl) : Queue :=
  ⟨q.committed, q.pending ++ [c], by
    intro hmem
    rcases List.mem_append.1 hmem with hmem | hmem
    · exact q.plain hmem
    · exact hc (List.eq_of_mem_singleton hmem).symm, by
    unfold length at h
    simp only [List.length_append, List.length_singleton]
    omega⟩

/-- Other characters to be read. -/
def withCommitted (q : Queue) (cs : List UInt8) (h : cs.length ≤ q.committed.length) : Queue :=
  ⟨cs, q.pending, q.plain, (Nat.add_le_add_right h _).trans q.room⟩

/-- `consoleintr` for one key. -/
def key (c : UInt8) (q : Queue) : Queue × Bool :=
  if c = ctrlP ∨ c = ctrlR then (q, false)
  else if c = ctrlU then (q.kill, false)
  else if c = ctrlH ∨ c = del then (q.erase, false)
  else if h : c ≠ 0 ∧ q.length < capacity then
    if hc : cooked c = nl ∨ cooked c = ctrlD ∨ q.length + 1 = capacity then
      (q.commit (cooked c) h.2, true)
    else (q.type (cooked c) h.2 fun hn => hc (.inl hn), false)
  else (q, false)

/-- The loop of `consoleread`. -/
def readLoop (killed : Bool) (target : ℕ) : ℕ → Queue → List UInt8 × Outcome × Queue
  | 0, q => ([], .returned (some target), q)
  | n + 1, q =>
    match h : q.committed with
    | [] => if killed then ([], .returned none, q) else ([], .asleep (n + 1), q)
    | c :: cs =>
      let q' := q.withCommitted cs (by rw [h]; exact Nat.le_succ _)
      if c = ctrlD then
        ([], .returned (some (target - (n + 1))), if n + 1 < target then q else q')
      else if c = nl then ([c], .returned (some (target - n)), q')
      else (c :: (readLoop killed target n q').1, (readLoop killed target n q').2)

theorem readLoop_of_nil {q : Queue} (killed : Bool) (target n : ℕ) (h : q.committed = []) :
    q.readLoop killed target (n + 1) =
      if killed then ([], .returned none, q) else ([], .asleep (n + 1), q) := by
  unfold readLoop
  split
  · rfl
  · rename_i h'
    rw [h] at h'
    cases h'

theorem tail_le {q : Queue} {c : UInt8} {cs : List UInt8} (h : q.committed = c :: cs) :
    cs.length ≤ q.committed.length := by
  rw [h]
  exact Nat.le_succ _

theorem readLoop_of_cons {q : Queue} {c : UInt8} {cs : List UInt8} (killed : Bool) (target n : ℕ)
    (h : q.committed = c :: cs) :
    q.readLoop killed target (n + 1) =
      if c = ctrlD then
        ([], .returned (some (target - (n + 1))),
          if n + 1 < target then q else q.withCommitted cs (tail_le h))
      else if c = nl then
        ([c], .returned (some (target - n)), q.withCommitted cs (tail_le h))
      else
        (c :: ((q.withCommitted cs (tail_le h)).readLoop killed target n).1,
          ((q.withCommitted cs (tail_le h)).readLoop killed target n).2) := by
  conv_lhs => unfold readLoop
  split
  · rename_i h'
    rw [h] at h'
    cases h'
  · rename_i c' cs' h'
    rw [h] at h'
    cases h'
    rfl

/-- The console as a queue. -/
def device : Device Queue := ⟨key, readLoop⟩

end Queue

/-! ### The ring buffer holds the queue -/

/-- The buffer `s` holds the queue `q`. -/
structure Rep (s : Input) (q : Queue) : Prop where
  /-- The characters stand in the buffer from `r` on. -/
  window : Window capacity s.buf s.r.toNat (q.committed ++ q.pending)
  /-- `w` is after those that may be read. -/
  w_ahead : Ahead s.r q.committed.length s.w
  /-- `e` is after all of them. -/
  e_ahead : Ahead s.w q.pending.length s.e

variable {s : Input} {q : Queue}

theorem capacity_dvd : capacity ∣ 2 ^ 32 := ⟨2 ^ 25, by norm_num [capacity]⟩

theorem lt_of_le_capacity {n : ℕ} (h : n ≤ capacity) : n < 2 ^ 32 :=
  h.trans_lt (by norm_num [capacity])

theorem Queue.length_le (q : Queue) : q.length ≤ capacity := q.room

theorem toNat_mod_inputBuf (i : UInt32) : (i % inputBuf).toNat = i.toNat % capacity :=
  UInt32.toNat_mod ..

namespace Rep

theorem all_ahead (h : Rep s q) : Ahead s.r q.length s.e := h.w_ahead.trans h.e_ahead

theorem e_eq_w_iff (h : Rep s q) : s.e = s.w ↔ q.pending = [] := by
  have hlt : q.pending.length < 2 ^ 32 := lt_of_le_capacity ((Nat.le_add_left ..).trans q.room)
  rw [eq_comm, h.e_ahead.eq_iff hlt, List.length_eq_zero_iff]

theorem r_eq_w_iff (h : Rep s q) : s.r = s.w ↔ q.committed = [] := by
  have hlt : q.committed.length < 2 ^ 32 :=
    lt_of_le_capacity ((Nat.le_add_right ..).trans q.room)
  rw [h.w_ahead.eq_iff hlt, List.length_eq_zero_iff]

theorem lt_iff (h : Rep s q) : s.e - s.r < inputBuf ↔ q.length < capacity :=
  h.all_ahead.lt_iff (lt_of_le_capacity q.length_le)

theorem e_mod (h : Rep s q) : (s.e % inputBuf).toNat = (s.r.toNat + q.length) % capacity := by
  rw [toNat_mod_inputBuf, h.all_ahead.mod_eq capacity_dvd]

theorem last_eq {cs : List UInt8} {c : UInt8} (h : Rep s q) (hp : q.pending = cs ++ [c]) :
    s.buf ((s.e - 1) % inputBuf).toNat = c := by
  have hw := h.window
  have he := h.all_ahead
  have hlen : q.length = q.committed.length + cs.length + 1 := by
    rw [Queue.length, hp, List.length_append, List.length_singleton, Nat.add_assoc]
  rw [hlen] at he
  rw [hp, ← List.append_assoc, window_append, List.length_append] at hw
  rw [toNat_mod_inputBuf, he.pred.mod_eq capacity_dvd]
  exact hw.2.1

theorem erase (h : Rep s q) (hne : s.e ≠ s.w) : Rep { s with e := s.e - 1 } q.erase := by
  have hp := mt h.e_eq_w_iff.2 hne
  obtain ⟨cs, c, hcs⟩ : ∃ cs c, q.pending = cs ++ [c] :=
    ⟨_, _, (List.dropLast_append_getLast hp).symm⟩
  have hdrop : q.pending.dropLast = cs := by rw [hcs, List.dropLast_concat]
  refine ⟨?_, h.w_ahead, ?_⟩
  · show Window capacity s.buf s.r.toNat (q.committed ++ q.pending.dropLast)
    have hw := h.window
    rw [hcs, ← List.append_assoc, window_append] at hw
    rw [hdrop]
    exact hw.1
  · show Ahead s.w q.pending.dropLast.length (s.e - 1)
    have he := h.e_ahead
    rw [hcs, List.length_append] at he
    rw [hdrop]
    exact he.pred

theorem of_eq {q' : Queue} (h : Rep s q) (hc : q'.committed = q.committed)
    (hp : q'.pending = q.pending) : Rep s q' := by
  rw [show q' = q from Queue.ext hc hp]
  exact h

/-- Killing the line: the character the loop looks for is never in it. -/
theorem kill {n : ℕ} (h : Rep s q) (hn : q.pending.length ≤ n) : Rep (killLine n s) q.kill := by
  induction n generalizing s q with
  | zero =>
    have hp : q.pending = [] := List.length_eq_zero_iff.1 (Nat.le_zero.1 hn)
    exact h.of_eq rfl hp.symm
  | succ n ih =>
    unfold killLine
    by_cases hne : s.e = s.w
    · rw [if_neg (by simp [hne])]
      exact h.of_eq rfl (h.e_eq_w_iff.1 hne).symm
    · have hp := mt h.e_eq_w_iff.2 hne
      have hlast := h.last_eq (List.dropLast_append_getLast hp).symm
      have hnl : s.buf ((s.e - 1) % inputBuf).toNat ≠ nl := by
        rw [hlast]
        exact ne_of_mem_of_not_mem (List.getLast_mem hp) q.plain
      rw [if_pos ⟨hne, hnl⟩]
      have hlen : q.erase.pending.length ≤ n := by
        show q.pending.dropLast.length ≤ n
        rw [List.length_dropLast]
        omega
      have hkill := ih (h.erase hne) hlen
      exact hkill.of_eq rfl rfl

theorem push (h : Rep s q) (hlt : q.length < capacity) (c : UInt8) :
    Window capacity (Function.update s.buf (s.e % inputBuf).toNat c) s.r.toNat
      (q.committed ++ (q.pending ++ [c])) := by
  have hlen : (q.committed ++ q.pending).length = q.length := List.length_append
  have := h.window.push (hlen ▸ hlt) c
  rwa [hlen, ← h.e_mod, List.append_assoc] at this

end Rep

/-- A key does to the buffer what it does to the queue. -/
theorem rep_key (h : Rep s q) (c : UInt8) :
    Rep (key c s).1 (q.key c).1 ∧ (key c s).2 = (q.key c).2 := by
  unfold key Queue.key
  by_cases h₁ : c = ctrlP ∨ c = ctrlR
  · rw [if_pos h₁, if_pos h₁]
    exact ⟨h, rfl⟩
  rw [if_neg h₁, if_neg h₁]
  by_cases h₂ : c = ctrlU
  · rw [if_pos h₂, if_pos h₂]
    refine ⟨h.kill ?_, rfl⟩
    have hlt : q.pending.length < 2 ^ 32 := lt_of_le_capacity ((Nat.le_add_left ..).trans q.room)
    rw [h.e_ahead.sub_eq, UInt32.toNat_ofNat_of_lt' hlt]
  rw [if_neg h₂, if_neg h₂]
  by_cases h₃ : c = ctrlH ∨ c = del
  · rw [if_pos h₃, if_pos h₃]
    refine ⟨?_, rfl⟩
    by_cases hne : s.e = s.w
    · have hp := h.e_eq_w_iff.1 hne
      rw [if_neg (not_not.2 hne)]
      exact h.of_eq rfl (show q.pending.dropLast = q.pending by rw [hp]; rfl)
    · rw [if_pos hne]
      exact h.erase hne
  rw [if_neg h₃, if_neg h₃]
  by_cases h₄ : c ≠ 0 ∧ q.length < capacity
  · rw [if_pos ⟨h₄.1, h.lt_iff.2 h₄.2⟩, dif_pos h₄]
    have hpush := h.push h₄.2 (cooked c)
    have hfull : s.e + 1 = s.r + inputBuf ↔ q.length + 1 = capacity :=
      h.all_ahead.succ.eq_add_iff (lt_of_le_capacity h₄.2)
    by_cases h₅ : cooked c = nl ∨ cooked c = ctrlD ∨ q.length + 1 = capacity
    · rw [dif_pos h₅]
      simp only [hfull, if_pos h₅]
      refine ⟨⟨?_, ?_, ahead_zero⟩, trivial⟩
      · show Window _ _ _ (q.committed ++ (q.pending ++ [cooked c]) ++ [])
        rw [List.append_nil]
        exact hpush
      · show Ahead s.r (q.committed ++ (q.pending ++ [cooked c])).length (s.e + 1)
        have := h.all_ahead.succ
        rw [Queue.length, Nat.add_assoc] at this
        rwa [List.length_append, List.length_append]
    · rw [dif_neg h₅]
      simp only [hfull, if_neg h₅]
      refine ⟨⟨hpush, h.w_ahead, ?_⟩, trivial⟩
      show Ahead s.w (q.pending ++ [cooked c]).length (s.e + 1)
      rw [List.length_append]
      exact h.e_ahead.succ
  · have h₄' : ¬ (c ≠ 0 ∧ s.e - s.r < inputBuf) := fun hc => h₄ ⟨hc.1, h.lt_iff.1 hc.2⟩
    rw [if_neg h₄', dif_neg h₄]
    exact ⟨h, rfl⟩

theorem Rep.tail {c : UInt8} {cs : List UInt8} (h : Rep s q) (hc : q.committed = c :: cs)
    (hle : cs.length ≤ q.committed.length) :
    s.buf (s.r % inputBuf).toNat = c ∧ Rep { s with r := s.r + 1 } (q.withCommitted cs hle) := by
  have hw := h.window
  have hahead := h.w_ahead
  rw [hc, List.cons_append, window_cons] at hw
  rw [hc, List.length_cons] at hahead
  refine ⟨by rw [toNat_mod_inputBuf]; exact hw.1, ?_, hahead.tail, h.e_ahead⟩
  refine hw.2.of_mod_eq (Eq.symm ?_)
  exact (show Ahead s.r 1 (s.r + 1) from rfl).mod_eq capacity_dvd

/-- A run of a call takes from the buffer what it takes from the queue. -/
theorem rep_readLoop (h : Rep s q) (killed : Bool) (target n : ℕ) :
    (readLoop killed target n s).1 = (q.readLoop killed target n).1 ∧
      (readLoop killed target n s).2.1 = (q.readLoop killed target n).2.1 ∧
      Rep (readLoop killed target n s).2.2 (q.readLoop killed target n).2.2 := by
  induction n generalizing s q with
  | zero => exact ⟨rfl, rfl, h⟩
  | succ n ih =>
    unfold readLoop
    cases hc : q.committed with
    | nil =>
      rw [if_pos (h.r_eq_w_iff.2 hc), Queue.readLoop_of_nil killed target n hc]
      cases killed <;> exact ⟨rfl, rfl, h⟩
    | cons c cs =>
      have hne : s.r ≠ s.w := by
        rw [Ne, h.r_eq_w_iff, hc]
        simp
      obtain ⟨hbuf, htail⟩ := h.tail hc (Queue.tail_le hc)
      rw [if_neg hne, Queue.readLoop_of_cons killed target n hc]
      simp only [hbuf]
      split_ifs with hD hn hnl
      · refine ⟨rfl, rfl, ?_⟩
        rw [UInt32.add_sub_cancel]
        exact h
      · exact ⟨rfl, rfl, htail⟩
      · exact ⟨rfl, rfl, htail⟩
      · obtain ⟨h₁, h₂, h₃⟩ := ih htail
        exact ⟨congrArg (c :: ·) h₁, h₂, h₃⟩

/-! ### Devices that agree -/

/-- The devices agree on related states: the keys wake up the same readers, and a call copies the
same bytes and ends in the same way. -/
structure Sim {σ τ : Type*} (D : Device σ) (D' : Device τ) (R : σ → τ → Prop) : Prop where
  /-- A key. -/
  key : ∀ {s t} c, R s t → R (D.key c s).1 (D'.key c t).1 ∧ (D.key c s).2 = (D'.key c t).2
  /-- A run of a call. -/
  readLoop : ∀ {s t} killed target n, R s t →
    (D.readLoop killed target n s).1 = (D'.readLoop killed target n t).1 ∧
      (D.readLoop killed target n s).2.1 = (D'.readLoop killed target n t).2.1 ∧
      R (D.readLoop killed target n s).2.2 (D'.readLoop killed target n t).2.2

/-- The ring buffer agrees with the queue. -/
theorem sim_rep : Sim device Queue.device Rep :=
  ⟨fun c h => rep_key h c, fun killed target n h => rep_readLoop h killed target n⟩

section Sim

variable {σ τ : Type*} {D : Device σ} {D' : Device τ} {R : σ → τ → Prop} {s : Sys σ} {t : Sys τ}

/-- The same processes are in the same calls. -/
def SysRel (R : σ → τ → Prop) (s : Sys σ) (t : Sys τ) : Prop := R s.dev t.dev ∧ s.calls = t.calls

theorem Sim.keyStep (H : Sim D D' R) (h : SysRel R s t) (c : UInt8) :
    SysRel R (keyStep D c s) (keyStep D' c t) := by
  obtain ⟨hdev, hwake⟩ := H.key c h.1
  refine ⟨hdev, ?_⟩
  unfold Console.keyStep
  rw [hwake, h.2]

theorem Sim.consoleintr (H : Sim D D' R) (h : SysRel R s t) (cs : List UInt8) :
    SysRel R (consoleintr D cs s) (consoleintr D' cs t) := by
  induction cs generalizing s t with
  | nil => exact h
  | cons c cs ih => exact ih (H.keyStep h c)

theorem Sim.runCall (H : Sim D D' R) (h : SysRel R s t) (pid : ℕ) (killed : Bool) (c : Call) :
    SysRel R (runCall D pid killed c s).1 (runCall D' pid killed c t).1 ∧
      (runCall D pid killed c s).2 = (runCall D' pid killed c t).2 := by
  have hread := H.readLoop killed c.target c.n h.1
  unfold Console.runCall
  generalize D.readLoop killed c.target c.n s.dev = a at hread ⊢
  generalize D'.readLoop killed c.target c.n t.dev = b at hread ⊢
  obtain ⟨cs, o, dev⟩ := a
  obtain ⟨cs', o', dev'⟩ := b
  obtain ⟨rfl, rfl, h₃⟩ : cs = cs' ∧ o = o' ∧ R dev dev' := hread
  cases o with
  | returned ret => exact ⟨⟨h₃, congrArg (Function.update · pid none) h.2⟩, rfl⟩
  | asleep n =>
    exact ⟨⟨h₃, congrArg (Function.update · pid (some ⟨c.target, n, false⟩)) h.2⟩, rfl⟩

theorem Sim.step (H : Sim D D' R) (h : SysRel R s t) (ev : Event) :
    SysRel R (step D ev s).1 (step D' ev t).1 ∧ (step D ev s).2 = (step D' ev t).2 := by
  cases ev with
  | intr cs => exact ⟨H.consoleintr h cs, rfl⟩
  | read pid n =>
    refine ⟨?_, rfl⟩
    show SysRel R (startCall pid n s) (startCall pid n t)
    unfold startCall
    rw [h.2]
    cases t.calls pid with
    | none => exact ⟨h.1, rfl⟩
    | some c => exact h
  | run pid killed =>
    show SysRel R (schedule D pid killed s).1 (schedule D' pid killed t).1 ∧
      (schedule D pid killed s).2 = (schedule D' pid killed t).2
    unfold schedule
    rw [h.2]
    cases t.calls pid with
    | none => exact ⟨h, rfl⟩
    | some c =>
      by_cases hc : c.awake
      · simp only [if_pos hc]
        exact H.runCall h pid killed c
      · simp only [if_neg hc]
        exact ⟨h, trivial⟩

/-- Agreeing devices cannot be told apart. -/
theorem Sim.run (H : Sim D D' R) (h : SysRel R s t) (evs : List Event) :
    SysRel R (run D evs s).1 (run D' evs t).1 ∧ (run D evs s).2 = (run D' evs t).2 := by
  induction evs generalizing s t with
  | nil => exact ⟨h, rfl⟩
  | cons ev evs ih =>
    obtain ⟨hstep, hout⟩ := H.step h ev
    obtain ⟨hrun, houts⟩ := ih hstep
    exact ⟨hrun, by unfold Console.run; rw [hout, houts]⟩

end Sim

end Console

end Xv6Editor
