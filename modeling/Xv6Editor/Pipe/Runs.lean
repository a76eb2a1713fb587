import Mathlib.Data.List.Infix
import Xv6Editor.CMem.Ring
import Xv6Editor.Pipe.Model

/-!
# What goes through a pipe

Results about every sequence of calls, scheduling decisions and closings, for any number of readers
and writers:

* `read_isPrefix_written` : what is read is what was written, in order, without loss or repetition.
* `eof_only_after_close` : a reader gets no bytes only when the write end is closed and all that
  was written has been read.
* `asleep_only_if_stuck` : unless a process is killed, readers sleep only while the pipe is empty
  and writers only while it is full.

`Rep p xs` says that the ring buffer holds the bytes `xs`.
-/

namespace Xv6Editor

namespace Pipes

/-- The size of the buffer. -/
def capacity : ℕ := 512

/-- The pipe holds the bytes `xs`. -/
structure Rep (p : Pipe) (xs : List UInt8) : Prop where
  /-- They stand in the buffer from `nread` on. -/
  window : Window capacity p.data p.nread.toNat xs
  /-- `nwrite` is after them. -/
  ahead : Ahead p.nread xs.length p.nwrite
  /-- There is room for them. -/
  room : xs.length ≤ capacity

variable {p : Pipe} {xs : List UInt8} {s : Sys}

theorem capacity_dvd : capacity ∣ 2 ^ 32 := ⟨2 ^ 23, by norm_num [capacity]⟩

theorem toNat_mod_pipeSize (i : UInt32) : (i % pipeSize).toNat = i.toNat % capacity :=
  UInt32.toNat_mod ..

namespace Rep

theorem length_lt (h : Rep p xs) : xs.length < 2 ^ 32 :=
  h.room.trans_lt (by norm_num [capacity])

theorem empty_iff (h : Rep p xs) : p.nread = p.nwrite ↔ xs = [] := by
  rw [h.ahead.eq_iff h.length_lt, List.length_eq_zero_iff]

theorem full_iff (h : Rep p xs) : p.nwrite = p.nread + pipeSize ↔ xs.length = capacity :=
  h.ahead.eq_add_iff h.length_lt

theorem push (h : Rep p xs) (hlt : xs.length < capacity) (b : UInt8) :
    Rep { p with data := Function.update p.data (p.nwrite % pipeSize).toNat b,
                 nwrite := p.nwrite + 1 } (xs ++ [b]) := by
  refine ⟨?_, ?_, ?_⟩
  · have hw := h.window.push hlt b
    rwa [← h.ahead.mod_eq capacity_dvd, ← toNat_mod_pipeSize] at hw
  · show Ahead p.nread (xs ++ [b]).length (p.nwrite + 1)
    rw [List.length_append]
    exact h.ahead.succ
  · rw [List.length_append]
    exact hlt

theorem pop {b : UInt8} (h : Rep p (b :: xs)) :
    p.data (p.nread % pipeSize).toNat = b ∧ Rep { p with nread := p.nread + 1 } xs := by
  obtain ⟨hb, hxs⟩ := h.window
  refine ⟨by rw [toNat_mod_pipeSize]; exact hb, ?_, h.ahead.tail, (Nat.le_succ _).trans h.room⟩
  refine hxs.of_mod_eq (Eq.symm ?_)
  exact (show Ahead p.nread 1 (p.nread + 1) from rfl).mod_eq capacity_dvd

theorem pipewrite (h : Rep p xs) (killed : Bool) (n : ℕ) (bs : List UInt8) :
    Rep (pipewrite killed n bs p).pipe (xs ++ (pipewrite killed n bs p).moved) := by
  induction bs generalizing p xs with
  | nil => rwa [Pipes.pipewrite, List.append_nil]
  | cons b bs ih =>
    unfold Pipes.pipewrite
    by_cases hfull : p.nwrite = p.nread + pipeSize
    · rw [if_pos hfull]
      split <;> rwa [List.append_nil]
    · rw [if_neg hfull]
      have hlt : xs.length < capacity := lt_of_le_of_ne h.room (mt h.full_iff.2 hfull)
      have := ih (h.push hlt b)
      rwa [List.append_assoc, List.singleton_append] at this

theorem copyLoop (h : Rep p xs) (n : ℕ) :
    (copyLoop n p).1 = xs.take n ∧ Rep (copyLoop n p).2 (xs.drop n) := by
  induction n generalizing p xs with
  | zero => exact ⟨rfl, h⟩
  | succ n ih =>
    unfold Pipes.copyLoop
    cases xs with
    | nil =>
      rw [if_pos (h.empty_iff.2 rfl)]
      exact ⟨rfl, h⟩
    | cons b xs =>
      obtain ⟨hb, hrep⟩ := h.pop
      rw [if_neg (mt h.empty_iff.1 (by simp))]
      obtain ⟨h₁, h₂⟩ := ih hrep
      refine ⟨?_, h₂⟩
      rw [hb]
      exact congrArg (b :: ·) h₁

theorem piperead (h : Rep p xs) (killed : Bool) (n : ℕ) :
    ∃ ys, xs = (piperead killed n p).moved ++ ys ∧ Rep (piperead killed n p).pipe ys := by
  unfold Pipes.piperead
  split
  · split <;> exact ⟨xs, rfl, h⟩
  · obtain ⟨h₁, h₂⟩ := h.copyLoop n
    refine ⟨xs.drop n, ?_, h₂⟩
    show xs = (Pipes.copyLoop n p).1 ++ xs.drop n
    rw [h₁, List.take_append_drop]

end Rep

/-! ### First in, first out -/

theorem moved_append (w : Bool) (os os' : List Output) :
    moved w (os ++ os') = moved w os ++ moved w os' :=
  List.flatMap_append

/-- What was written, `put`, is what was read, `got`, and what is in the pipe. -/
def Fifo (put got : List UInt8) (p : Pipe) : Prop := ∃ xs, Rep p xs ∧ put = got ++ xs

variable {put got : List UInt8}

theorem Fifo.runCall (h : Fifo put got s.pipe) (pid : ℕ) (killed : Bool) (c : Call) :
    Fifo (put ++ moved true (runCall pid killed c s).2.toList)
      (got ++ moved false (runCall pid killed c s).2.toList) (runCall pid killed c s).1.pipe := by
  obtain ⟨xs, hrep, rfl⟩ := h
  obtain ⟨wait, n, awake⟩ := c
  cases wait with
  | read m =>
    obtain ⟨ys, hys, hrep'⟩ := hrep.piperead killed m
    refine ⟨ys, hrep', ?_⟩
    show got ++ xs ++ [] = got ++ ((piperead killed m s.pipe).moved ++ []) ++ ys
    rw [List.append_nil, List.append_nil, List.append_assoc, ← hys]
  | write bs =>
    refine ⟨_, hrep.pipewrite killed n bs, ?_⟩
    show got ++ xs ++ ((pipewrite killed n bs s.pipe).moved ++ []) = got ++ [] ++ _
    rw [List.append_nil, List.append_nil, List.append_assoc]

theorem pipe_startCall (pid : ℕ) (w : Wait) (n : ℕ) (s : Sys) :
    (startCall pid w n s).pipe = s.pipe := by
  unfold startCall
  split <;> rfl

theorem Fifo.step (h : Fifo put got s.pipe) (ev : Event) :
    Fifo (put ++ moved true (step ev s).2.toList) (got ++ moved false (step ev s).2.toList)
      (step ev s).1.pipe := by
  have hnil : Fifo (put ++ moved true []) (got ++ moved false []) s.pipe := by
    simpa [moved] using h
  cases ev with
  | read pid n => exact (pipe_startCall pid (.read n) n s).symm ▸ hnil
  | write pid bs => exact (pipe_startCall pid (.write bs) bs.length s).symm ▸ hnil
  | run pid killed =>
    simp only [Pipes.step, schedule]
    split
    · split
      · exact h.runCall pid killed _
      · exact hnil
    · exact hnil
  | close writable =>
    obtain ⟨xs, hrep, hput⟩ := hnil
    cases writable
    · exact ⟨xs, ⟨hrep.window, hrep.ahead, hrep.room⟩, hput⟩
    · exact ⟨xs, ⟨hrep.window, hrep.ahead, hrep.room⟩, hput⟩

theorem Fifo.run (h : Fifo put got s.pipe) (evs : List Event) :
    Fifo (put ++ moved true (run evs s).2) (got ++ moved false (run evs s).2)
      (run evs s).1.pipe := by
  induction evs generalizing s put got with
  | nil => simpa [Pipes.run, moved] using h
  | cons ev evs ih =>
    rw [Pipes.run, moved_append, moved_append, ← List.append_assoc, ← List.append_assoc]
    exact ih (h.step ev)

theorem fifo_run (data : ℕ → UInt8) (evs : List Event) :
    Fifo (moved true (run evs (pipealloc data)).2) (moved false (run evs (pipealloc data)).2)
      (run evs (pipealloc data)).1.pipe := by
  have hnew : Fifo [] [] (pipealloc data).pipe :=
    ⟨[], ⟨trivial, ahead_zero, Nat.zero_le _⟩, rfl⟩
  exact hnew.run evs

/-- **Pipes are first in, first out.**  In every run the bytes that the readers have got are the
first ones that the writers have put in, and all of them when the pipe is empty. -/
theorem read_isPrefix_written (data : ℕ → UInt8) (evs : List Event) :
    moved false (run evs (pipealloc data)).2 <+: moved true (run evs (pipealloc data)).2 ∧
      ((run evs (pipealloc data)).1.pipe.nread = (run evs (pipealloc data)).1.pipe.nwrite →
        moved false (run evs (pipealloc data)).2 = moved true (run evs (pipealloc data)).2) := by
  obtain ⟨xs, hrep, hput⟩ := fifo_run data evs
  rw [hput]
  refine ⟨List.prefix_append .., fun hempty => ?_⟩
  rw [hrep.empty_iff.1 hempty, List.append_nil]

/-- **End of file means end of file.**  If, after any run, a call of `piperead` for at least one
byte returns `0`, the write end is closed and all that was written has been read. -/
theorem eof_only_after_close (data : ℕ → UInt8) (evs : List Event) (pid : ℕ) (killed : Bool)
    {n m : ℕ} (hn : 0 < n)
    (hc : (run evs (pipealloc data)).1.calls pid = some ⟨.read n, m, true⟩)
    (ho : (step (.run pid killed) (run evs (pipealloc data)).1).2 =
      some ⟨false, [], .returned (some 0)⟩) :
    (run evs (pipealloc data)).1.pipe.writeopen = false ∧
      moved false (run evs (pipealloc data)).2 = moved true (run evs (pipealloc data)).2 := by
  obtain ⟨xs, hrep, hput⟩ := fifo_run data evs
  generalize (run evs (pipealloc data)).1 = s at hc ho hrep ⊢
  have hout : (piperead killed n s.pipe).moved = [] ∧
      (piperead killed n s.pipe).outcome = .returned (some 0) := by
    simp only [step, schedule, hc, if_pos, runCall, Wait.result, Option.some_inj,
      Output.mk.injEq] at ho
    exact ho.2
  unfold piperead at hout
  split_ifs at hout with hwait hk
  · cases hout.2
  · cases hout.2
  · obtain ⟨htake, -⟩ := hrep.copyLoop n
    have hxs : xs = [] := by
      have hnil : xs.take n = [] := htake.symm.trans hout.1
      rcases List.take_eq_nil_iff.1 hnil with h0 | h0
      · exact absurd h0 hn.ne'
      · exact h0
    refine ⟨?_, by rw [hput, hxs, List.append_nil]⟩
    by_contra hopen
    exact hwait ⟨hrep.empty_iff.2 hxs, by simpa using hopen⟩

/-- One byte is written, the write end is closed, and the byte is read before the end of file. -/
theorem eof_only_after_close_one_byte :
    (run [.write 0 [7], .run 0 false, .close true, .read 1 1, .run 1 false, .read 1 1]
        (pipealloc fun _ => 0)).1.pipe.writeopen = false ∧
      moved false (run [.write 0 [7], .run 0 false, .close true, .read 1 1, .run 1 false, .read 1 1]
        (pipealloc fun _ => 0)).2 =
      moved true (run [.write 0 [7], .run 0 false, .close true, .read 1 1, .run 1 false, .read 1 1]
        (pipealloc fun _ => 0)).2 :=
  eof_only_after_close (fun _ => 0)
    [.write 0 [7], .run 0 false, .close true, .read 1 1, .run 1 false, .read 1 1] 1 false
    Nat.one_pos rfl rfl

/-! ### Sleeping -/

/-- The call has to wait: a reader for bytes, a writer for room. -/
def Stuck (p : Pipe) (xs : List UInt8) : Wait → Prop
  | .read _ => xs = [] ∧ p.writeopen = true
  | .write _ => xs.length = capacity

/-- Whoever sleeps has to wait. -/
def Asleep (s : Sys) (xs : List UInt8) : Prop :=
  ∀ pid c, s.calls pid = some c → c.awake = false → Stuck s.pipe xs c.wait

/-- The read end is open and whoever sleeps has to wait. -/
structure Live (s : Sys) : Prop where
  /-- The read end is open. -/
  readopen : s.pipe.readopen = true
  /-- Whoever sleeps has to wait. -/
  asleep : ∃ xs, Rep s.pipe xs ∧ Asleep s xs

/-- A run of `pipewrite` that is not killed: it returns or it fills the pipe, and wakes the readers
in both cases. -/
theorem pipewrite_spec (h : Rep p xs) (hopen : p.readopen = true) (n : ℕ) (bs : List UInt8) :
    (pipewrite false n bs p).wakes = true ∧
      (pipewrite false n bs p).pipe.readopen = true ∧
      (pipewrite false n bs p).pipe.writeopen = p.writeopen ∧
      ((pipewrite false n bs p).outcome = .returned (some n) ∨
        ∃ cs, (pipewrite false n bs p).outcome = .asleep (.write cs) ∧
          (xs ++ (pipewrite false n bs p).moved).length = capacity) := by
  induction bs generalizing p xs with
  | nil => exact ⟨rfl, hopen, rfl, .inl rfl⟩
  | cons b bs ih =>
    unfold pipewrite
    by_cases hfull : p.nwrite = p.nread + pipeSize
    · rw [if_pos hfull, if_neg (by simp [hopen])]
      refine ⟨rfl, hopen, rfl, .inr ⟨_, rfl, ?_⟩⟩
      rw [List.append_nil]
      exact h.full_iff.1 hfull
    · rw [if_neg hfull]
      have hlt : xs.length < capacity := lt_of_le_of_ne h.room (mt h.full_iff.2 hfull)
      obtain ⟨h₁, h₂, h₃, h₄⟩ := ih (h.push hlt b) hopen
      refine ⟨h₁, h₂, h₃, ?_⟩
      rw [List.append_assoc, List.singleton_append] at h₄
      exact h₄

theorem copyLoop_open (n : ℕ) (p : Pipe) :
    (copyLoop n p).2.readopen = p.readopen ∧ (copyLoop n p).2.writeopen = p.writeopen := by
  induction n generalizing p with
  | zero => exact ⟨rfl, rfl⟩
  | succ n ih =>
    unfold copyLoop
    split
    · exact ⟨rfl, rfl⟩
    · exact ih _

/-- A run of `piperead` that is not killed: it sleeps, or it returns and wakes the writers. -/
theorem piperead_spec (h : Rep p xs) (n : ℕ) :
    ((xs = [] ∧ p.writeopen = true) ∧
        piperead false n p = ⟨[], .asleep (.read n), false, p⟩) ∨
      (¬ (xs = [] ∧ p.writeopen = true) ∧ (piperead false n p).wakes = true ∧
        (∃ k, (piperead false n p).outcome = .returned (some k)) ∧
        (piperead false n p).pipe.readopen = p.readopen) := by
  have hiff : p.nread = p.nwrite ∧ p.writeopen = true ↔ xs = [] ∧ p.writeopen = true :=
    and_congr_left' h.empty_iff
  unfold piperead
  by_cases hwait : xs = [] ∧ p.writeopen = true
  · rw [if_pos (hiff.2 hwait)]
    exact .inl ⟨hwait, rfl⟩
  · rw [if_neg (mt hiff.1 hwait)]
    exact .inr ⟨hwait, rfl, ⟨_, rfl⟩, (copyLoop_open n p).1⟩

theorem isWrite_of_asleep_wakeup {calls : ℕ → Option Call} {pid : ℕ} {c : Call} {w : Bool}
    (h : wakeup w calls pid = some c) (hasleep : c.awake = false) :
    calls pid = some c ∧ c.wait.isWrite = !w := by
  obtain ⟨c', hc', hcc⟩ := Option.map_eq_some_iff.1 h
  split_ifs at hcc with hw
  · rw [← hcc] at hasleep
    cases hasleep
  · subst hcc
    refine ⟨hc', ?_⟩
    cases hcw : c'.wait.isWrite <;> cases w <;> simp_all

/-- Other calls, of which those that sleep have to wait, and another one for process `pid`. -/
theorem Asleep.update {calls : ℕ → Option Call} {v : Option Call} (pid : ℕ)
    (h : Asleep ⟨p, calls⟩ xs) (hv : ∀ c, v = some c → Stuck p xs c.wait) :
    Asleep ⟨p, Function.update calls pid v⟩ xs := by
  intro q c hc hasleep
  change Function.update calls pid v q = some c at hc
  by_cases hq : q = pid
  · rw [hq, Function.update_self] at hc
    exact hv c hc
  · rw [Function.update_of_ne hq] at hc
    exact h q c hc hasleep

theorem Live.runCall (h : Live s) (pid : ℕ) (c : Call) : Live (runCall pid false c s).1 := by
  obtain ⟨hopen, xs, hrep, hasleep⟩ := h
  obtain ⟨wait, n, awake⟩ := c
  cases wait with
  | write bs =>
    have hrep' := hrep.pipewrite false n bs
    obtain ⟨hwakes, hro, hwo, hout⟩ := pipewrite_spec hrep hopen n bs
    refine ⟨hro, _, hrep', ?_⟩
    simp only [Pipes.runCall, Wait.result, hwakes, if_true, Wait.isWrite, Bool.not_true]
    refine Asleep.update pid ?_ fun c hc => ?_
    · -- the readers are awake, and a writer that sleeps had no room before
      intro q c hc hs
      obtain ⟨hc', hw⟩ := isWrite_of_asleep_wakeup hc hs
      have hstuck := hasleep q c hc' hs
      cases hcw : c.wait with
      | read m =>
        rw [hcw] at hw
        cases hw
      | write cs =>
        rw [hcw] at hstuck
        have hfull : xs.length = capacity := hstuck
        have hroom := hrep'.room
        rw [List.length_append] at hroom
        show (xs ++ _).length = capacity
        rw [List.length_append]
        omega
    · rcases hout with hout | ⟨cs, hout, hfull⟩
      · rw [hout] at hc
        cases hc
      · rw [hout] at hc
        cases hc
        exact hfull
  | read m =>
    obtain ⟨ys, hys, hrep'⟩ := hrep.piperead false m
    rcases piperead_spec hrep m with ⟨hwait, hr⟩ | ⟨hwait, hwakes, ⟨k, hout⟩, hro⟩
    · -- nothing has changed, and the process sleeps
      simp only [Pipes.runCall, Wait.result, hr]
      refine ⟨hopen, xs, hrep, Asleep.update pid hasleep fun c hc => ?_⟩
      cases hc
      exact hwait
    · refine ⟨hro.trans hopen, ys, hrep', ?_⟩
      simp only [Pipes.runCall, Wait.result, hwakes, if_true, Wait.isWrite, Bool.not_false, hout]
      refine Asleep.update pid ?_ fun c hc => by cases hc
      -- the writers are awake, and no reader had to wait
      intro q c hc hs
      obtain ⟨hc', hw⟩ := isWrite_of_asleep_wakeup hc hs
      have hstuck := hasleep q c hc' hs
      cases hcw : c.wait with
      | read m =>
        rw [hcw] at hstuck
        exact absurd hstuck hwait
      | write cs =>
        rw [hcw] at hw
        cases hw

/-- The read end stays open and nobody is killed. -/
def Plain : Event → Prop
  | .close writable => writable = true
  | .run _ killed => killed = false
  | _ => True

theorem Live.startCall (h : Live s) (pid : ℕ) (w : Wait) (n : ℕ) : Live (startCall pid w n s) := by
  obtain ⟨hopen, xs, hrep, hasleep⟩ := h
  unfold Pipes.startCall
  split
  · refine ⟨hopen, xs, hrep, fun q c hc hs => ?_⟩
    change Function.update s.calls pid (some ⟨w, n, true⟩) q = some c at hc
    by_cases hq : q = pid
    · rw [hq, Function.update_self, Option.some_inj] at hc
      rw [← hc] at hs
      cases hs
    · rw [Function.update_of_ne hq] at hc
      exact hasleep q c hc hs
  · exact ⟨hopen, xs, hrep, hasleep⟩

theorem Live.step {ev : Event} (h : Live s) (hev : Plain ev) : Live (step ev s).1 := by
  cases ev with
  | read pid n => exact h.startCall pid (.read n) n
  | write pid bs => exact h.startCall pid (.write bs) bs.length
  | run pid killed =>
    obtain rfl : killed = false := hev
    simp only [Pipes.step, schedule]
    split
    · split
      · exact h.runCall pid _
      · exact h
    · exact h
  | close writable =>
    obtain rfl : writable = true := hev
    obtain ⟨hopen, xs, hrep, hasleep⟩ := h
    refine ⟨hopen, xs, ⟨hrep.window, hrep.ahead, hrep.room⟩, fun q c hc hs => ?_⟩
    obtain ⟨hc', hw⟩ := isWrite_of_asleep_wakeup hc hs
    have hstuck := hasleep q c hc' hs
    cases hcw : c.wait with
    | read m =>
      rw [hcw] at hw
      cases hw
    | write cs =>
      rw [hcw] at hstuck
      exact hstuck

theorem Live.run {evs : List Event} (h : Live s) (hevs : ∀ ev ∈ evs, Plain ev) :
    Live (run evs s).1 := by
  induction evs generalizing s with
  | nil => exact h
  | cons ev evs ih =>
    obtain ⟨hev, hevs⟩ := List.forall_mem_cons.1 hevs
    exact ih (h.step hev) hevs

/-- **No wakeup is lost.**  As long as the read end is open and nobody is killed, a reader sleeps
only while the pipe is empty and the write end open, and a writer only while the pipe is full. -/
theorem asleep_only_if_stuck (data : ℕ → UInt8) (evs : List Event) (hevs : ∀ ev ∈ evs, Plain ev)
    (pid : ℕ) {c : Call} (hc : (run evs (pipealloc data)).1.calls pid = some c)
    (hs : c.awake = false) :
    if c.wait.isWrite then
      (run evs (pipealloc data)).1.pipe.nwrite = (run evs (pipealloc data)).1.pipe.nread + pipeSize
    else
      (run evs (pipealloc data)).1.pipe.nread = (run evs (pipealloc data)).1.pipe.nwrite ∧
        (run evs (pipealloc data)).1.pipe.writeopen = true := by
  have hnew : Live (pipealloc data) :=
    ⟨rfl, [], ⟨trivial, ahead_zero, Nat.zero_le _⟩, fun _ _ hc => by cases hc⟩
  obtain ⟨-, xs, hrep, hasleep⟩ := hnew.run hevs
  have hstuck := hasleep pid c hc hs
  cases hcw : c.wait with
  | read m =>
    rw [hcw] at hstuck
    exact ⟨hrep.empty_iff.2 hstuck.1, hstuck.2⟩
  | write cs =>
    rw [hcw] at hstuck
    exact hrep.full_iff.2 hstuck

/-- A reader waits at an empty pipe. -/
theorem asleep_only_if_stuck_reader :
    (run [.read 1 3, .run 1 false] (pipealloc fun _ => 0)).1.pipe.nread =
        (run [.read 1 3, .run 1 false] (pipealloc fun _ => 0)).1.pipe.nwrite ∧
      (run [.read 1 3, .run 1 false] (pipealloc fun _ => 0)).1.pipe.writeopen = true :=
  asleep_only_if_stuck (fun _ => 0) [.read 1 3, .run 1 false] (by simp [Plain]) 1
    (c := ⟨.read 3, 3, false⟩) rfl rfl

end Pipes

end Xv6Editor
