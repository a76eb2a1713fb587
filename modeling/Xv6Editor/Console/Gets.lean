import Xv6Editor.Editor.Commands
import Xv6Editor.Console.Runs

/-!
# A line from the console

`gets` of `ulib.c` reads a byte at a time, and every byte is a system call: between two of them
the typist goes on, and other processes run.  `gets_of_run` says that the line it returns is all
the same the one that the editor's model takes from the typed text, corrected as the typist
corrected it.
-/

namespace Xv6Editor

namespace Console

/-- What the calls that have returned have copied, one after the other. -/
def results (os : List Output) : List (List UInt8) :=
  os.filterMap fun o => o.ret.map fun _ => o.copied

/-- The loop of `gets(buf, max)` with `max - 1` bytes of room, when `read(0, &c, 1)` returns the
given results; it waits after the last of them. -/
def getsReads : ℕ → List (List UInt8) → List UInt8
  | 0, _ => []
  | _ + 1, [] => []
  | _ + 1, [] :: _ => []
  | n + 1, (c :: _) :: rs => if c = nl ∨ c = cr then [c] else c :: getsReads n rs

theorem getsReads_singletons (k : ℕ) (cs : List UInt8) :
    getsReads k (cs.map fun c => [c]) = (getsFrom k cs).1 := by
  induction cs generalizing k with
  | nil => cases k <;> rfl
  | cons c cs ih =>
    cases k with
    | zero => rfl
    | succ k =>
      rw [List.map_cons, getsReads, getsFrom, ih]
      show (if c = nl ∨ c = cr then _ else _) = (if c = nl ∨ c = cr then ([c], cs) else _).1
      split_ifs <;> rfl

/-- What comes after the line does not matter. -/
theorem getsFrom_of_mem_take {k : ℕ} {cs ds : List UInt8} (h : nl ∈ cs.take k) :
    (getsFrom k (cs ++ ds)).1 = (getsFrom k cs).1 := by
  induction cs generalizing k with
  | nil =>
    rw [List.take_nil] at h
    cases h
  | cons c cs ih =>
    cases k with
    | zero => cases h
    | succ k =>
      rw [List.cons_append, getsFrom, getsFrom]
      split_ifs with hc
      · rfl
      · have hmem : nl ∈ cs.take k := by
          rcases List.mem_cons.1 h with rfl | h
          · exact absurd (.inl rfl) hc
          · exact h
        exact congrArg (c :: ·) (ih hmem)

/-- One process reads, a byte at a time; it is not killed, and no end of file is typed. -/
def Plain : Event → Prop
  | .intr cs => ctrlD ∉ cs
  | .read pid n => pid = 0 ∧ n = 1
  | .run _ killed => killed = false

/-- The queue has no end of file and all calls are for one byte. -/
structure ByteWise (s : Sys Queue) : Prop where
  /-- No end of file to be read. -/
  committed : ctrlD ∉ s.dev.committed
  /-- Nor in the line being typed. -/
  pending : ctrlD ∉ s.dev.pending
  /-- The calls are for one byte. -/
  calls : ∀ pid c, s.calls pid = some c → c.target = 1 ∧ c.n = 1

variable {q : Queue} {s : Sys Queue}

theorem Queue.mem_key {x c : UInt8}
    (h : x ∈ (q.key c).1.committed ∨ x ∈ (q.key c).1.pending) :
    x = cooked c ∨ x ∈ q.committed ∨ x ∈ q.pending := by
  have hdrop : x ∈ q.pending.dropLast → x ∈ q.pending := fun h => List.dropLast_subset _ h
  unfold key at h
  split_ifs at h <;> simp [kill, erase, commit, type] at h <;> tauto

theorem cooked_ne {c : UInt8} (h : c ≠ ctrlD) : ctrlD ≠ cooked c := by
  unfold cooked
  split_ifs
  · decide
  · exact h.symm

namespace ByteWise

theorem keyStep {c : UInt8} (h : ByteWise s) (hc : c ≠ ctrlD) :
    ByteWise (keyStep Queue.device c s) := by
  have hno : ¬ (ctrlD ∈ (s.dev.key c).1.committed ∨ ctrlD ∈ (s.dev.key c).1.pending) := by
    intro hmem
    rcases Queue.mem_key hmem with he | he | he
    · exact cooked_ne hc he
    · exact h.committed he
    · exact h.pending he
  refine ⟨fun hm => hno (.inl hm), fun hm => hno (.inr hm), fun pid call hcall => ?_⟩
  unfold Console.keyStep at hcall
  split_ifs at hcall
  · obtain ⟨c', hc', rfl⟩ := Option.map_eq_some_iff.1 hcall
    exact h.calls pid c' hc'
  · exact h.calls pid call hcall

theorem consoleintr {cs : List UInt8} (h : ByteWise s) (hcs : ctrlD ∉ cs) :
    ByteWise (consoleintr Queue.device cs s) := by
  induction cs generalizing s with
  | nil => exact h
  | cons c cs ih =>
    rw [List.mem_cons, not_or] at hcs
    exact ih (h.keyStep (Ne.symm hcs.1)) hcs.2

theorem update {dev : Queue} {v : Option Call} (h : ByteWise s) (pid : ℕ)
    (hc : ctrlD ∉ dev.committed) (hp : dev.pending = s.dev.pending)
    (hv : ∀ c, v = some c → c.target = 1 ∧ c.n = 1) :
    ByteWise ⟨dev, Function.update s.calls pid v⟩ := by
  refine ⟨hc, hp ▸ h.pending, fun p c hpc => ?_⟩
  change Function.update s.calls pid v p = some c at hpc
  by_cases he : p = pid
  · rw [he, Function.update_self] at hpc
    exact hv c hpc
  · rw [Function.update_of_ne he] at hpc
    exact h.calls p c hpc

/-- A call for one byte sleeps, or it returns one. -/
theorem readLoop_one (h : ByteWise s) :
    (∃ q', s.dev.readLoop false 1 1 = ([], .asleep 1, q')) ∨
      ∃ c q', s.dev.readLoop false 1 1 = ([c], .returned (some 1), q') := by
  cases hc : s.dev.committed with
  | nil => exact .inl ⟨_, Queue.readLoop_of_nil false 1 0 hc⟩
  | cons c cs =>
    have hne : c ≠ ctrlD := by
      rintro rfl
      exact h.committed (by rw [hc]; exact List.mem_cons_self)
    have hread := Queue.readLoop_of_cons false 1 0 hc
    rw [if_neg hne] at hread
    split_ifs at hread
    · exact .inr ⟨c, _, hread⟩
    · exact .inr ⟨c, _, hread⟩

theorem runCall {c : Call} (h : ByteWise s) (pid : ℕ) (hc : c.target = 1 ∧ c.n = 1) :
    ByteWise (runCall Queue.device pid false c s).1 ∧
      results (runCall Queue.device pid false c s).2.toList =
        (copied (runCall Queue.device pid false c s).2.toList).map fun c => [c] := by
  obtain ⟨cs, hcs, -, hpend⟩ := s.dev.exists_taken_readLoop false 1 1
  have hno : ctrlD ∉ (s.dev.readLoop false 1 1).2.2.committed := fun hm =>
    h.committed (hcs ▸ List.mem_append_right cs hm)
  unfold Console.runCall
  rw [hc.1, hc.2, show Queue.device.readLoop false 1 1 s.dev = s.dev.readLoop false 1 1 from rfl]
  rcases h.readLoop_one with ⟨q', hr⟩ | ⟨b, q', hr⟩
  · rw [hr] at hno hpend ⊢
    refine ⟨h.update pid hno hpend fun c hc => ?_, rfl⟩
    cases hc
    exact ⟨rfl, rfl⟩
  · rw [hr] at hno hpend ⊢
    refine ⟨h.update pid hno hpend ?_, rfl⟩
    intro c hc
    cases hc

/-- One event, and what the calls that return in it return. -/
theorem step {ev : Event} (h : ByteWise s) (hev : Plain ev) :
    ByteWise (step Queue.device ev s).1 ∧
      results (step Queue.device ev s).2.toList =
        (copied (step Queue.device ev s).2.toList).map fun c => [c] := by
  cases ev with
  | intr cs => exact ⟨h.consoleintr hev, rfl⟩
  | read pid n =>
    obtain ⟨-, rfl⟩ : pid = 0 ∧ n = 1 := hev
    refine ⟨?_, rfl⟩
    show ByteWise (startCall pid 1 s)
    unfold startCall
    split
    · refine h.update pid h.committed rfl fun c hc => ?_
      cases hc
      exact ⟨rfl, rfl⟩
    · exact h
  | run pid killed =>
    obtain rfl : killed = false := hev
    simp only [Console.step, schedule]
    split
    · rename_i c hc
      split
      · exact h.runCall pid (h.calls pid c hc)
      · exact ⟨h, rfl⟩
    · exact ⟨h, rfl⟩

theorem run {evs : List Event} (h : ByteWise s) (hevs : ∀ ev ∈ evs, Plain ev) :
    results (run Queue.device evs s).2 =
      (copied (run Queue.device evs s).2).map fun c => [c] := by
  induction evs generalizing s with
  | nil => rfl
  | cons ev evs ih =>
    obtain ⟨hev, hevs⟩ := List.forall_mem_cons.1 hevs
    obtain ⟨hstep, hres⟩ := h.step hev
    rw [Console.run, copied_append, List.map_append, ← hres, ← ih hstep hevs]
    exact List.filterMap_append

end ByteWise

theorem notMem_cookKey {c : UInt8} {st : List UInt8 × List UInt8} (hc : c ≠ ctrlD)
    (h : ctrlD ∉ st.1 ∧ ctrlD ∉ st.2) : ctrlD ∉ (cookKey c st).1 ∧ ctrlD ∉ (cookKey c st).2 := by
  have hdrop : ctrlD ∉ st.2.dropLast := fun hm => h.2 (List.dropLast_subset _ hm)
  have hne := cooked_ne hc
  unfold cookKey
  split_ifs <;> simp [h.1, h.2, hdrop, hne]

theorem notMem_cookFrom {cs : List UInt8} {st : List UInt8 × List UInt8} (hcs : ctrlD ∉ cs)
    (h : ctrlD ∉ st.1 ∧ ctrlD ∉ st.2) : ctrlD ∉ (cookFrom cs st).1 := by
  induction cs generalizing st with
  | nil => exact h.1
  | cons c cs ih =>
    rw [List.mem_cons, not_or] at hcs
    exact ih hcs.2 (notMem_cookKey (Ne.symm hcs.1) h)

theorem text_cook {cs : List UInt8} (h : ctrlD ∉ cs) : text (cook cs).1 = (cook cs).1 := by
  refine List.filter_eq_self.2 fun c hc => ?_
  simpa using ne_of_mem_of_not_mem hc (notMem_cookFrom h ⟨by simp, by simp⟩)

theorem notMem_keys {evs : List Event} (h : ∀ ev ∈ evs, Plain ev) : ctrlD ∉ keys evs := by
  induction evs with
  | nil => simp [keys]
  | cons ev evs ih =>
    obtain ⟨hev, hevs⟩ := List.forall_mem_cons.1 h
    cases ev with
    | intr cs =>
      rw [keys, List.mem_append, not_or]
      exact ⟨hev, ih hevs⟩
    | read pid n => exact ih hevs
    | run pid killed => exact ih hevs

/-- **`gets` returns the corrected line.**  A process reads a byte at a time while the typist types;
the buffer does not fill up and no end of file is typed.  If a whole line has been read, `gets`
returns what the editor's `getsFrom` takes from the typed text. -/
theorem gets_of_run (buf : ℕ → UInt8) (evs : List Event) (k : ℕ) (h : Roomy evs (boot buf))
    (hevs : ∀ ev ∈ evs, Plain ev) (hline : nl ∈ (copied (run device evs (boot buf)).2).take k) :
    getsReads k (results (run device evs (boot buf)).2) = (getsFrom k (cook (keys evs)).1).1 := by
  obtain ⟨-, hout⟩ := exists_queue buf evs
  have hbyte : ByteWise ⟨Queue.empty, fun _ => none⟩ :=
    ⟨by simp [Queue.empty], by simp [Queue.empty], fun _ _ hc => by cases hc⟩
  have hres := hbyte.run hevs
  rw [← hout] at hres
  rw [hres, getsReads_singletons, ← text_cook (notMem_keys hevs), ← copied_append_readable h]
  exact (getsFrom_of_mem_take hline).symm

/-- The line `ix`, corrected to `i` while it is being read. -/
theorem gets_of_run_corrected :
    getsReads 255 (results (run device [.read 0 1, .run 0 false, .intr [105, 120, ctrlH, cr],
      .run 0 false, .read 0 1, .run 0 false] (boot fun _ => 0)).2) =
      (getsFrom 255 (cook [105, 120, ctrlH, cr]).1).1 :=
  gets_of_run (fun _ => 0) [.read 0 1, .run 0 false, .intr [105, 120, ctrlH, cr],
    .run 0 false, .read 0 1, .run 0 false] 255
    ⟨⟨by decide, by decide, by decide, by decide, trivial⟩, trivial⟩
    (by simp [Plain, ctrlD, ctrlH, ctrl, cr]) (by decide)

end Console

end Xv6Editor
