import Xv6Editor.Runs.Held

/-!
# The undo log is a bounded stack

`record_command` and `com_rollback` are the only functions that change the undo log.  Called in any
order they do to it what `LogOp.apply` does to a list: push on top, with the oldest of more than 20
entries dropped, and pop.  What `com_rollback` does to the text does not matter, nor which strings
were recorded.

* `LogOp.run_log` : one call.
* `log_of_calls` : a sequence of calls.
-/

namespace Xv6Editor

/-- A call that changes the undo log. -/
inductive LogOp
  /-- `record_command(c)`. -/
  | record (c : Line)
  /-- `com_rollback(text, 1)`. -/
  | rollback
  deriving DecidableEq

namespace LogOp

/-- The call in the code. -/
def run (disp : Display) (s : State) : LogOp → Except Halt State
  | record c => recordCommand s c
  | rollback => comRollback disp s

/-- The call on a stack of at most 20 entries, with the newest at the end. -/
def apply (log : List Line) : LogOp → List Line
  | record c => Undo.push 20 log c
  | rollback => log.dropLast

/-- What is recorded is a string of at most 255 bytes. -/
def Fits : LogOp → Prop
  | record c => 0 ∉ c ∧ c.length ≤ 255
  | rollback => True

instance (op : LogOp) : Decidable op.Fits := by
  cases op with
  | record c => exact inferInstanceAs (Decidable (_ ∧ _))
  | rollback => exact instDecidableTrue

/-- Calls one after the other. -/
def runAll (disp : Display) (ops : List LogOp) (s : State) : Except Halt State :=
  ops.foldlM (run disp) s

variable {disp : Display} {s s' : State} {op : LogOp}

/-- One call. -/
theorem run_log (h : Held s) (hop : op.Fits) :
    Ensures (fun s' => Held s' ∧ s'.log = apply s.log op) (run disp s op) := by
  cases op with
  | record c =>
    obtain ⟨s', hs, h', hlog⟩ := h.recordCommand hop.1 (Nat.lt_succ_of_le hop.2)
    rw [run, hs]
    exact .ok ⟨h', hlog⟩
  | rollback => exact h.comRollback disp

theorem runAll_log (h : Held s) {ops : List LogOp} (hops : ∀ op ∈ ops, op.Fits) :
    Ensures (fun s' => Held s' ∧ s'.log = ops.foldl apply s.log) (runAll disp ops s) := by
  induction ops generalizing s with
  | nil => exact .ok ⟨h, rfl⟩
  | cons op ops ih =>
    -- the other calls start from the log that the first one leaves
    rw [runAll, List.foldlM_cons, List.foldl_cons]
    refine .bind (run_log h (hops op List.mem_cons_self)) fun s' ⟨h', hlog⟩ => ?_
    rw [← hlog]
    exact ih h' fun op hop => hops op (List.mem_cons_of_mem _ hop)

end LogOp

variable {disp : Display} {s s' : State} {ops : List LogOp}

/-- After any sequence of calls from the empty log on, the log is that of the bounded stack.  The
next `record_command` returns, and the next `com_rollback` takes the newest entry `r` off and
follows a copy of it, or does nothing if there is none. -/
theorem log_of_calls (h : Held s) (hlog : s.log = []) (hops : ∀ op ∈ ops, op.Fits)
    (hs : LogOp.runAll disp ops s = .ok s') :
    s'.log = ops.foldl LogOp.apply [] ∧
    s'.upperBound = s'.log.length - 1 ∧ -1 ≤ s'.upperBound ∧ s'.upperBound ≤ 19 ∧
    (∀ c, 0 ∉ c → c.length ≤ 255 → ∃ s'', recordCommand s' c = .ok s'') ∧
    (s'.log = [] → comRollback disp s' = .ok (s'.print (alarm "couldn't rollback"))) ∧
    ∀ r, s'.log.getLast? = some r → ∃ s₁ p b junk, s₁.log = s'.log.dropLast ∧
      s₁.lines = s'.lines ∧ s₁.heap.get p = some b ∧ b.bytes = r ++ 0 :: junk ∧
      comRollback disp s' = replay disp s₁ p := by
  obtain ⟨h', hlog'⟩ := LogOp.runAll_log h hops s' hs
  obtain ⟨hu, hle⟩ := h'.upperBound_eq
  refine ⟨by rw [hlog', hlog], hu, by omega, by omega, fun c hc hlen => ?_,
    h'.comRollback_nil disp, fun r hr => ?_⟩
  · obtain ⟨s'', hs'', -⟩ := h'.recordCommand hc (Nat.lt_succ_of_le hlen)
    exact ⟨s'', hs''⟩
  · obtain ⟨s₁, p, b, junk, -, -, hrest⟩ := h'.comRollback_replay disp hr
    exact ⟨s₁, p, b, junk, hrest⟩

/-- Twenty records, one more, and a step back: the oldest of them is gone. -/
def twentyRecords : List LogOp :=
  List.replicate 20 (.record (bytesOf "mod-1 a")) ++ [.record (bytesOf "ins-1 "), .rollback]

theorem log_of_calls_session : ∃ s s', s.log = [] ∧
    LogOp.runAll noDisplay twentyRecords s = .ok s' ∧
    s'.log = List.replicate 19 (bytesOf "mod-1 a") ∧ s'.upperBound = 18 := by
  obtain ⟨s, ho, hs⟩ := exists_of_returns (r := openFile (.session (some []) []) [])
    (p := fun s => returns (LogOp.runAll noDisplay twentyRecords s) fun _ => true)
    (by decide +kernel)
  obtain ⟨s', hs', -⟩ := exists_of_returns hs
  obtain ⟨s₁, ho', A, -⟩ : ∃ s, openFile (.session (some []) []) [] = .ok s ∧ Abs False s _ ∧ _ :=
    openFile_some rfl False.elim
  cases ho.symm.trans ho'
  have hlog : s.log = [] := A.log_eq.trans rfl
  obtain ⟨hl, hu, -⟩ := log_of_calls ⟨_, A.toMem, by decide⟩ hlog (by decide) hs'
  have hstack : twentyRecords.foldl LogOp.apply [] = List.replicate 19 (bytesOf "mod-1 a") := by
    decide
  rw [hstack] at hl
  exact ⟨s, s', hlog, hs', hl, by rw [hu, hl]; rfl⟩

end Xv6Editor
