import Mathlib.Data.List.Infix
import Xv6Editor.Console.Queue

/-!
# What the readers of the console get

Results about every sequence of interrupts, calls and scheduling decisions from boot on:

* `copied_isPrefix_cook` : as long as the buffer does not fill up, the readers get the typed text
  as corrected by the typist, `cook`, in order and without loss or repetition; it does not matter
  when they read.
* `committed_isPrefix` : whatever happens, what may be read once is not changed or lost later.
* `awake_of_readable` : no process sleeps while there is something to read.

They are proved of the queue and carried over to the ring buffer by `Sim.run`.
-/

namespace Xv6Editor

namespace Console

/-! ### The typed text -/

/-- A key, for a typist with any amount of room: the finished lines, and the line being typed. -/
def cookKey (c : UInt8) (st : List UInt8 × List UInt8) : List UInt8 × List UInt8 :=
  if c = ctrlP ∨ c = ctrlR then st
  else if c = ctrlU then (st.1, [])
  else if c = ctrlH ∨ c = del then (st.1, st.2.dropLast)
  else if c = 0 then st
  else if cooked c = nl ∨ cooked c = ctrlD then (st.1 ++ (st.2 ++ [cooked c]), [])
  else (st.1, st.2 ++ [cooked c])

/-- The keys `cs`, after some others. -/
def cookFrom (cs : List UInt8) (st : List UInt8 × List UInt8) : List UInt8 × List UInt8 :=
  cs.foldl (fun st c => cookKey c st) st

/-- The finished lines and the line being typed, after the keys `cs`. -/
def cook (cs : List UInt8) : List UInt8 × List UInt8 := cookFrom cs ([], [])

/-- The characters that may be read. -/
def Input.readable (s : Input) : List UInt8 :=
  (List.range (s.w - s.r).toNat).map fun i => s.buf ((s.r.toNat + i) % capacity)

/-- The text in some characters: the end-of-file character is not part of it. -/
def text (cs : List UInt8) : List UInt8 := cs.filter (· ≠ ctrlD)

@[simp] theorem text_append (cs ds : List UInt8) : text (cs ++ ds) = text cs ++ text ds :=
  List.filter_append ..

/-- The keys of which nothing is stored. -/
def silentKeys : List UInt8 := [0, ctrlP, ctrlR, ctrlU, ctrlH, del]

/-- There is room for the key, if it is stored at all.  In the last place any character ends the
line, so that only one that does so anyway may go there. -/
def room (c : UInt8) (s : Input) : Prop :=
  c ∈ silentKeys ∨ s.e - s.r < inputBuf - 1 ∨
    (cooked c = nl ∨ cooked c = ctrlD) ∧ s.e - s.r < inputBuf

instance (c : UInt8) (s : Input) : Decidable (room c s) := by
  unfold room
  infer_instance

section Roomy

variable {σ : Type*} (D : Device σ) (P : UInt8 → σ → Prop)

/-- `P` holds whenever one of the keys `cs` arrives. -/
def AtKeys : List UInt8 → Sys σ → Prop
  | [], _ => True
  | c :: cs, s => P c s.dev ∧ AtKeys cs (keyStep D c s)

/-- `P` holds at every key of a run. -/
def AtEvents : List Event → Sys σ → Prop
  | [], _ => True
  | .intr cs :: evs, s => AtKeys D P cs s ∧ AtEvents evs (step D (.intr cs) s).1
  | ev :: evs, s => AtEvents evs (step D ev s).1

end Roomy

/-- The buffer does not fill up in a run. -/
def Roomy (evs : List Event) (s : Sys Input) : Prop := AtEvents device room evs s

/-! ### The queue -/

variable {q : Queue} {s : Sys Queue}

namespace Queue

/-- There is room for the key, if it is stored at all. -/
def Room (c : UInt8) (q : Queue) : Prop :=
  c ∈ silentKeys ∨ q.length + 1 < capacity ∨
    (cooked c = nl ∨ cooked c = ctrlD) ∧ q.length < capacity

/-- A key adds at the end of what may be read, if it does anything to it. -/
theorem exists_committed_key (q : Queue) (c : UInt8) :
    ∃ cs, (q.key c).1.committed = q.committed ++ cs ∧ ((q.key c).2 = false → cs = []) := by
  unfold key
  split_ifs
  all_goals first
    | exact ⟨[], (List.append_nil _).symm, fun _ => rfl⟩
    | exact ⟨_, rfl, fun h => absurd h (by decide)⟩

/-- A run of a call takes characters from the front; it copies all but the end-of-file character. -/
theorem exists_taken_readLoop (q : Queue) (killed : Bool) (target n : ℕ) :
    ∃ cs, q.committed = cs ++ (q.readLoop killed target n).2.2.committed ∧
      (q.readLoop killed target n).1 = text cs ∧
      (q.readLoop killed target n).2.2.pending = q.pending := by
  induction n generalizing q with
  | zero => exact ⟨[], rfl, rfl, rfl⟩
  | succ n ih =>
    cases hc : q.committed with
    | nil =>
      rw [readLoop_of_nil killed target n hc]
      cases killed <;> exact ⟨[], hc.symm ▸ rfl, rfl, rfl⟩
    | cons c cs =>
      rw [readLoop_of_cons killed target n hc]
      split_ifs with hD hn hnl
      · exact ⟨[], hc.symm, rfl, rfl⟩
      · exact ⟨[c], rfl, by simp [text, hD], rfl⟩
      · exact ⟨[c], rfl, by simp [text, hD], rfl⟩
      · obtain ⟨ds, hds, hcopy, hpend⟩ := ih (q.withCommitted cs (tail_le hc))
        refine ⟨c :: ds, congrArg (c :: ·) hds, ?_, hpend⟩
        rw [hcopy, text, text, List.filter_cons_of_pos (by simpa using hD)]

theorem committed_of_asleep {killed : Bool} {target n m : ℕ}
    (h : (q.readLoop killed target n).2.1 = .asleep m) :
    (q.readLoop killed target n).2.2.committed = [] := by
  induction n generalizing q with
  | zero => cases h
  | succ n ih =>
    cases hc : q.committed with
    | nil =>
      rw [readLoop_of_nil killed target n hc]
      cases killed <;> exact hc
    | cons c cs =>
      rw [readLoop_of_cons killed target n hc] at h ⊢
      split_ifs at h ⊢
      exact ih h

/-- If there is room, a key does to the queue what it does for a typist with any amount of it. -/
theorem key_of_room {c : UInt8} (h : q.Room c) (cs : List UInt8) :
    (cs ++ (q.key c).1.committed, (q.key c).1.pending) =
      cookKey c (cs ++ q.committed, q.pending) := by
  unfold key cookKey
  by_cases h₁ : c = ctrlP ∨ c = ctrlR
  · rw [if_pos h₁, if_pos h₁]
  by_cases h₂ : c = ctrlU
  · rw [if_neg h₁, if_neg h₁, if_pos h₂, if_pos h₂]
    rfl
  by_cases h₃ : c = ctrlH ∨ c = del
  · rw [if_neg h₁, if_neg h₁, if_neg h₂, if_neg h₂, if_pos h₃, if_pos h₃]
    rfl
  rw [if_neg h₁, if_neg h₁, if_neg h₂, if_neg h₂, if_neg h₃, if_neg h₃]
  by_cases h₀ : c = 0
  · rw [dif_neg fun hc => hc.1 h₀, if_pos h₀]
  -- the key is stored
  have hs : c ∉ silentKeys := by
    simp only [silentKeys, List.mem_cons, List.not_mem_nil, or_false]
    tauto
  have hfit := h.resolve_left hs
  have hlt : q.length < capacity := hfit.elim Nat.lt_of_succ_lt And.right
  rw [dif_pos ⟨h₀, hlt⟩, if_neg h₀]
  by_cases hend : cooked c = nl ∨ cooked c = ctrlD
  · rw [dif_pos (hend.imp_right .inl), if_pos hend]
    simp [commit]
  · have hne : q.length + 1 ≠ capacity := Nat.ne_of_lt (hfit.resolve_right fun hc => hend hc.1)
    rw [dif_neg (by tauto), if_neg hend]
    rfl

end Queue

/-! ### Runs of the queue -/

/-- The readers have got `out`, and with what is in the queue this is the typed text `st`. -/
def Delivered (st : List UInt8 × List UInt8) (out : List UInt8) (q : Queue) : Prop :=
  ∃ taken, (taken ++ q.committed, q.pending) = st ∧ out = text taken

variable {st : List UInt8 × List UInt8} {out : List UInt8}

theorem Delivered.key {c : UInt8} (h : Delivered st out q) (hq : q.Room c) :
    Delivered (cookKey c st) out (q.key c).1 := by
  obtain ⟨taken, rfl, hout⟩ := h
  exact ⟨taken, Queue.key_of_room hq taken, hout⟩

theorem Delivered.readLoop (h : Delivered st out q) (killed : Bool) (target n : ℕ) :
    Delivered st (out ++ (q.readLoop killed target n).1) (q.readLoop killed target n).2.2 := by
  obtain ⟨taken, rfl, rfl⟩ := h
  obtain ⟨cs, hcs, hcopy, hpend⟩ := q.exists_taken_readLoop killed target n
  refine ⟨taken ++ cs, ?_, ?_⟩
  · rw [List.append_assoc, ← hcs, hpend]
  · rw [text_append, hcopy]

theorem Delivered.consoleintr {cs : List UInt8} (h : Delivered st out s.dev)
    (hr : AtKeys Queue.device Queue.Room cs s) :
    Delivered (cookFrom cs st) out (consoleintr Queue.device cs s).dev := by
  induction cs generalizing s st with
  | nil => exact h
  | cons c cs ih => exact ih (h.key hr.1) hr.2

theorem runCall_eq {σ : Type*} (D : Device σ) (pid : ℕ) (killed : Bool) (c : Call) (s : Sys σ) :
    (runCall D pid killed c s).1.dev = (D.readLoop killed c.target c.n s.dev).2.2 ∧
      copied (runCall D pid killed c s).2.toList = (D.readLoop killed c.target c.n s.dev).1 := by
  unfold runCall
  generalize D.readLoop killed c.target c.n s.dev = a
  obtain ⟨cs, o, dev⟩ := a
  cases o <;> exact ⟨rfl, List.append_nil cs⟩

/-- What an event other than an interrupt does to the device: nothing, or a run of a call. -/
theorem step_cases {σ : Type*} (D : Device σ) (ev : Event) (s : Sys σ) (hev : ∀ cs, ev ≠ .intr cs) :
    ((step D ev s).1.dev = s.dev ∧ copied (step D ev s).2.toList = []) ∨
      ∃ killed target n, (step D ev s).1.dev = (D.readLoop killed target n s.dev).2.2 ∧
        copied (step D ev s).2.toList = (D.readLoop killed target n s.dev).1 := by
  cases ev with
  | intr cs => exact absurd rfl (hev cs)
  | read pid n =>
    refine .inl ⟨?_, rfl⟩
    show (startCall pid n s).dev = s.dev
    unfold startCall
    split <;> rfl
  | run pid killed =>
    simp only [step, schedule]
    split
    · rename_i c _
      split
      · exact .inr ⟨killed, c.target, c.n, runCall_eq D pid killed c s⟩
      · exact .inl ⟨rfl, rfl⟩
    · exact .inl ⟨rfl, rfl⟩

theorem Delivered.step {ev : Event} (h : Delivered st out s.dev) (hev : ∀ cs, ev ≠ .intr cs) :
    Delivered st (out ++ copied (step Queue.device ev s).2.toList)
      (step Queue.device ev s).1.dev := by
  rcases step_cases Queue.device ev s hev with ⟨hdev, hout⟩ | ⟨killed, target, n, hdev, hout⟩
  · rw [hdev, hout, List.append_nil]
    exact h
  · rw [hdev, hout]
    exact h.readLoop killed target n

theorem copied_append (os os' : List Output) : copied (os ++ os') = copied os ++ copied os' :=
  List.flatMap_append

theorem Delivered.run {evs : List Event} (h : Delivered st out s.dev)
    (hr : AtEvents Queue.device Queue.Room evs s) :
    Delivered (cookFrom (keys evs) st) (out ++ copied (run Queue.device evs s).2)
      (run Queue.device evs s).1.dev := by
  induction evs generalizing s st out with
  | nil =>
    rw [show copied (Console.run Queue.device [] s).2 = [] from rfl, List.append_nil]
    exact h
  | cons ev evs ih =>
    rw [Console.run, copied_append, ← List.append_assoc]
    cases ev with
    | intr cs =>
      have hkeys : cookFrom (keys (.intr cs :: evs)) st = cookFrom (keys evs) (cookFrom cs st) :=
        List.foldl_append ..
      rw [hkeys]
      refine ih ?_ hr.2
      rw [show copied (Console.step Queue.device (.intr cs) s).2.toList = [] from rfl,
        List.append_nil]
      exact h.consoleintr hr.1
    | read pid n => exact ih (h.step fun cs hc => by cases hc) hr
    | run pid killed => exact ih (h.step fun cs hc => by cases hc) hr

/-- What may be read only grows, at its end, from one event to the next. -/
theorem exists_more_step (ev : Event) (s : Sys Queue) :
    ∃ more, copied (step Queue.device ev s).2.toList ++
        text (step Queue.device ev s).1.dev.committed = text s.dev.committed ++ more := by
  by_cases hev : ∃ cs, ev = .intr cs
  · obtain ⟨cs, rfl⟩ := hev
    show ∃ more, text (consoleintr Queue.device cs s).dev.committed = text s.dev.committed ++ more
    induction cs generalizing s with
    | nil => exact ⟨[], (List.append_nil _).symm⟩
    | cons c cs ih =>
      obtain ⟨m₁, h₁⟩ := ih (keyStep Queue.device c s)
      obtain ⟨m₂, h₂, -⟩ := s.dev.exists_committed_key c
      refine ⟨text m₂ ++ m₁, ?_⟩
      rw [← List.append_assoc, ← text_append, ← h₂]
      exact h₁
  · rcases step_cases Queue.device ev s (fun cs hc => hev ⟨cs, hc⟩) with
      ⟨hdev, hout⟩ | ⟨killed, target, n, hdev, hout⟩
    · exact ⟨[], by rw [hdev, hout, List.append_nil, List.nil_append]⟩
    · obtain ⟨cs, hcs, hcopy, -⟩ := s.dev.exists_taken_readLoop killed target n
      refine ⟨[], ?_⟩
      rw [hdev, hout, List.append_nil, hcs, text_append, ← hcopy]
      rfl

/-- Nor is anything lost in a run. -/
theorem exists_more_run (evs : List Event) (s : Sys Queue) :
    ∃ more, copied (run Queue.device evs s).2 ++ text (run Queue.device evs s).1.dev.committed =
      text s.dev.committed ++ more := by
  induction evs generalizing s with
  | nil => exact ⟨[], (List.append_nil _).symm⟩
  | cons ev evs ih =>
    obtain ⟨m₁, h₁⟩ := exists_more_step ev s
    obtain ⟨m₂, h₂⟩ := ih (step Queue.device ev s).1
    refine ⟨m₁ ++ m₂, ?_⟩
    rw [run, copied_append, List.append_assoc, h₂, ← List.append_assoc, h₁, List.append_assoc]

theorem run_append {σ : Type*} (D : Device σ) (evs evs' : List Event) (s : Sys σ) :
    run D (evs ++ evs') s =
      ((run D evs' (run D evs s).1).1, (run D evs s).2 ++ (run D evs' (run D evs s).1).2) := by
  induction evs generalizing s with
  | nil => rfl
  | cons ev evs ih =>
    rw [List.cons_append, run, ih, run, List.append_assoc]

/-! ### Sleeping -/

/-- Whoever sleeps has nothing to read. -/
def Awake (s : Sys Queue) : Prop :=
  ∀ pid c, s.calls pid = some c → c.awake = false → s.dev.committed = []

theorem Awake.keyStep (h : Awake s) (c : UInt8) : Awake (keyStep Queue.device c s) := by
  intro pid call hcall hasleep
  obtain ⟨cs, hcs, hflag⟩ := s.dev.exists_committed_key c
  show (s.dev.key c).1.committed = []
  cases hw : (s.dev.key c).2 with
  | true =>
    -- the key has woken up everybody
    have hcalls : (Console.keyStep Queue.device c s).calls = wakeup s.calls := if_pos hw
    rw [hcalls, wakeup, Option.map_eq_some_iff] at hcall
    obtain ⟨c', -, rfl⟩ := hcall
    cases hasleep
  | false =>
    have hcalls : (Console.keyStep Queue.device c s).calls = s.calls :=
      if_neg (by rw [show (Queue.device.key c s.dev).2 = false from hw]; simp)
    rw [hcalls] at hcall
    rw [hcs, hflag hw, List.append_nil]
    exact h pid call hcall hasleep

theorem Awake.consoleintr (h : Awake s) (cs : List UInt8) :
    Awake (consoleintr Queue.device cs s) := by
  induction cs generalizing s with
  | nil => exact h
  | cons c cs ih => exact ih (h.keyStep c)

theorem Awake.update {dev : Queue} {v : Option Call} (h : Awake s) (pid : ℕ)
    (hdev : s.dev.committed = [] → dev.committed = [])
    (hv : ∀ c, v = some c → c.awake = false → dev.committed = []) :
    Awake ⟨dev, Function.update s.calls pid v⟩ := by
  intro p c hc hasleep
  change Function.update s.calls pid v p = some c at hc
  by_cases hp : p = pid
  · rw [hp, Function.update_self] at hc
    exact hv c hc hasleep
  · rw [Function.update_of_ne hp] at hc
    exact hdev (h p c hc hasleep)

theorem Awake.runCall (h : Awake s) (pid : ℕ) (killed : Bool) (c : Call) :
    Awake (runCall Queue.device pid killed c s).1 := by
  obtain ⟨cs, hcs, -⟩ := s.dev.exists_taken_readLoop killed c.target c.n
  have hasleep : ∀ m, (s.dev.readLoop killed c.target c.n).2.1 = .asleep m →
      (s.dev.readLoop killed c.target c.n).2.2.committed = [] := fun _ =>
    Queue.committed_of_asleep
  unfold Console.runCall
  rw [show Queue.device.readLoop killed c.target c.n s.dev =
    s.dev.readLoop killed c.target c.n from rfl]
  generalize s.dev.readLoop killed c.target c.n = a at hcs hasleep ⊢
  obtain ⟨out, o, dev⟩ := a
  have hdev : s.dev.committed = [] → dev.committed = [] := fun hnil =>
    (List.append_eq_nil_iff.1 (hcs.symm.trans hnil)).2
  cases o with
  | returned ret =>
    refine h.update pid hdev ?_
    intro c hc
    cases hc
  | asleep n => exact h.update pid hdev fun _ _ _ => hasleep n rfl

theorem Awake.step (h : Awake s) (ev : Event) : Awake (step Queue.device ev s).1 := by
  cases ev with
  | intr cs => exact h.consoleintr cs
  | read pid n =>
    show Awake (startCall pid n s)
    unfold startCall
    split
    · refine h.update pid id fun c hc hasleep => ?_
      cases hc
      cases hasleep
    · exact h
  | run pid killed =>
    simp only [Console.step, schedule]
    split
    · split
      · exact h.runCall pid killed _
      · exact h
    · exact h

theorem Awake.run (h : Awake s) (evs : List Event) : Awake (run Queue.device evs s).1 := by
  induction evs generalizing s with
  | nil => exact h
  | cons ev evs ih => exact ih (h.step ev)

/-! ### The ring buffer -/

variable {i : Input} {t : Sys Input}

theorem Rep.readable_eq (h : Rep i q) : i.readable = q.committed := by
  have hlt : q.committed.length < 2 ^ 32 :=
    lt_of_le_capacity ((Nat.le_add_right ..).trans q.room)
  have hw := (window_append.1 h.window).1
  unfold Input.readable
  rw [h.w_ahead.sub_eq, UInt32.toNat_ofNat_of_lt' hlt, hw.map_range]

theorem Rep.room_of {c : UInt8} (h : Rep i q) (hr : room c i) : q.Room c := by
  refine hr.imp_right (Or.imp (fun hlt => ?_) fun hend => ⟨hend.1, h.lt_iff.1 hend.2⟩)
  have := (h.all_ahead.lt_iff (lt_of_le_capacity q.length_le)).1 hlt
  unfold capacity
  exact Nat.add_lt_of_lt_sub this

theorem rep_boot (buf : ℕ → UInt8) :
    SysRel Rep (boot buf) ⟨Queue.empty, fun _ => none⟩ :=
  ⟨⟨trivial, ahead_zero, ahead_zero⟩, rfl⟩

theorem Sim.atKeys {σ τ : Type*} {D : Device σ} {D' : Device τ} {R : σ → τ → Prop}
    {P : UInt8 → σ → Prop} {P' : UInt8 → τ → Prop} {s : Sys σ} {t : Sys τ} (H : Sim D D' R)
    (hP : ∀ c s t, R s t → P c s → P' c t) (h : SysRel R s t) {cs : List UInt8}
    (hc : AtKeys D P cs s) : AtKeys D' P' cs t := by
  induction cs generalizing s t with
  | nil => trivial
  | cons c cs ih => exact ⟨hP c _ _ h.1 hc.1, ih (H.keyStep h c) hc.2⟩

theorem Sim.atEvents {σ τ : Type*} {D : Device σ} {D' : Device τ} {R : σ → τ → Prop}
    {P : UInt8 → σ → Prop} {P' : UInt8 → τ → Prop} {s : Sys σ} {t : Sys τ} (H : Sim D D' R)
    (hP : ∀ c s t, R s t → P c s → P' c t) (h : SysRel R s t) {evs : List Event}
    (he : AtEvents D P evs s) : AtEvents D' P' evs t := by
  induction evs generalizing s t with
  | nil => trivial
  | cons ev evs ih =>
    cases ev with
    | intr cs => exact ⟨H.atKeys hP h he.1, ih (H.step h _).1 he.2⟩
    | read pid n => exact ih (H.step h (.read pid n)).1 he
    | run pid killed => exact ih (H.step h (.run pid killed)).1 he

theorem exists_queue (buf : ℕ → UInt8) (evs : List Event) :
    SysRel Rep (run device evs (boot buf)).1
        (run Queue.device evs ⟨Queue.empty, fun _ => none⟩).1 ∧
      (run device evs (boot buf)).2 = (run Queue.device evs ⟨Queue.empty, fun _ => none⟩).2 :=
  sim_rep.run (rep_boot buf) evs

/-- The typed text is what the readers have got and what they can get. -/
theorem copied_append_readable {buf : ℕ → UInt8} {evs : List Event} (h : Roomy evs (boot buf)) :
    copied (run device evs (boot buf)).2 ++ text (run device evs (boot buf)).1.dev.readable =
      text (cook (keys evs)).1 := by
  obtain ⟨hrel, hout⟩ := exists_queue buf evs
  have hroomy : AtEvents Queue.device Queue.Room evs ⟨Queue.empty, fun _ => none⟩ :=
    sim_rep.atEvents (P := room) (fun _ _ _ => Rep.room_of) (rep_boot buf) h
  have hstart : Delivered ([], []) [] Queue.empty := ⟨[], rfl, rfl⟩
  obtain ⟨taken, htaken, htext⟩ := Delivered.run (s := ⟨Queue.empty, fun _ => none⟩) hstart hroomy
  have hcook := congrArg Prod.fst htaken
  dsimp only at hcook
  rw [List.nil_append, ← hout] at htext
  rw [hrel.1.readable_eq, cook, ← hcook, text_append, ← htext]

/-- **The readers get what was typed.**  In every run in which the buffer does not fill up, the
bytes copied to the readers are, in order, the beginning of the finished lines as the typist
corrected them, and all of them if there is nothing left to read. -/
theorem copied_isPrefix_cook (buf : ℕ → UInt8) (evs : List Event) (h : Roomy evs (boot buf)) :
    copied (run device evs (boot buf)).2 <+: text (cook (keys evs)).1 ∧
      ((run device evs (boot buf)).1.dev.readable = [] →
        copied (run device evs (boot buf)).2 = text (cook (keys evs)).1) := by
  rw [← copied_append_readable h]
  refine ⟨List.prefix_append .., fun hnil => ?_⟩
  rw [hnil]
  exact (List.append_nil _).symm

/-- A line typed with a correction, read a byte at a time while it is being typed. -/
theorem copied_isPrefix_cook_corrected :
    copied (run device [.read 0 1, .run 0 false, .intr [105, 120], .intr [ctrlH, cr], .run 0 false]
        (boot fun _ => 0)).2 <+: text (cook [105, 120, ctrlH, cr]).1 :=
  (copied_isPrefix_cook (fun _ => 0) [.read 0 1, .run 0 false, .intr [105, 120], .intr [ctrlH, cr],
    .run 0 false] ⟨⟨by decide, by decide, trivial⟩, ⟨by decide, by decide, trivial⟩, trivial⟩).1

/-- **What may be read is final.**  In every run, full buffer or not, the text that the readers
have got and can get is still there, at the beginning, however the run goes on. -/
theorem committed_isPrefix (buf : ℕ → UInt8) (evs evs' : List Event) :
    copied (run device evs (boot buf)).2 ++ text (run device evs (boot buf)).1.dev.readable <+:
      copied (run device (evs ++ evs') (boot buf)).2 ++
        text (run device (evs ++ evs') (boot buf)).1.dev.readable := by
  obtain ⟨hrel, hout⟩ := exists_queue buf evs
  obtain ⟨hrel', hout'⟩ := exists_queue buf (evs ++ evs')
  rw [hrel.1.readable_eq, hrel'.1.readable_eq, hout, hout', run_append, copied_append]
  obtain ⟨more, hmore⟩ :=
    exists_more_run evs' (run Queue.device evs ⟨Queue.empty, fun _ => none⟩).1
  refine ⟨more, ?_⟩
  rw [List.append_assoc, ← hmore, List.append_assoc]

/-- **No wakeup is lost.**  While there is something to read, every process that is in a call of
`consoleread` can run. -/
theorem awake_of_readable (buf : ℕ → UInt8) (evs : List Event) (pid : ℕ) {c : Call}
    (hc : (run device evs (boot buf)).1.calls pid = some c)
    (hr : (run device evs (boot buf)).1.dev.readable ≠ []) : c.awake = true := by
  obtain ⟨hrel, -⟩ := exists_queue buf evs
  have hawake : Awake (run Queue.device evs ⟨Queue.empty, fun _ => none⟩).1 :=
    Awake.run (fun _ _ hnone => by cases hnone) evs
  by_contra hne
  rw [hrel.1.readable_eq] at hr
  rw [hrel.2] at hc
  exact hr (hawake pid c hc (by simpa using hne))

/-- Two readers wait for the one line. -/
theorem awake_of_readable_two :
    ∃ c, (run device [.read 0 9, .read 1 9, .run 1 false, .run 0 false, .intr [97, cr]]
      (boot fun _ => 0)).1.calls 1 = some c ∧ c.awake = true :=
  ⟨⟨9, 9, true⟩, rfl, awake_of_readable (fun _ => 0)
    [.read 0 9, .read 1 9, .run 1 false, .run 0 false, .intr [97, cr]] 1 rfl (by decide)⟩

end Console

end Xv6Editor
