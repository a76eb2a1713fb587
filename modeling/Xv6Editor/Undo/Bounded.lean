import Mathlib.Data.List.Induction

/-!
# Undo from a bounded log of records

An editor applies edits and keeps, for each of them, a record from which the edit can be undone.
The log of records is bounded: when it is full the oldest record is dropped.

* `push cap` is the bounded log's operation.
* `Editor` is what an edit does and what it records, and what undoing from a record does; its law
  `revert_record` says that a record undoes the edit it was made for, when that edit is the last.
* `Editor.undoN_run`: after a run of edits on any log, as many undo steps as there are edits and
  as fit into the log lead back through the states of the run.
-/

namespace Undo

variable {α ε ρ : Type*} {cap : ℕ} {log log' : List ρ} {r : ρ}

/-! ### The bounded log -/

/-- Add a record at the end; beyond `cap` records the oldest goes. -/
def push (cap : ℕ) (log : List ρ) (r : ρ) : List ρ := (log ++ [r]).drop (log.length + 1 - cap)

theorem push_of_lt (h : log.length < cap) (r : ρ) : push cap log r = log ++ [r] := by
  rw [push, show log.length + 1 - cap = 0 by omega, List.drop_zero]

theorem push_of_eq (h : log.length = cap) (h0 : 0 < cap) (r : ρ) :
    push cap log r = log.drop 1 ++ [r] := by
  rw [push, show log.length + 1 - cap = 1 by omega, List.drop_append_of_le_length (by omega)]

@[simp] theorem length_push (cap : ℕ) (log : List ρ) (r : ρ) :
    (push cap log r).length = min (log.length + 1) cap := by
  simp only [push, List.length_drop, List.length_append, List.length_singleton]
  omega

theorem mem_push {x : ρ} (h : x ∈ push cap log r) : x ∈ log ∨ x = r := by
  simpa using List.mem_of_mem_drop h

theorem push_eq_concat (h : 0 < cap) (log : List ρ) (r : ρ) :
    push cap log r = log.drop (log.length + 1 - cap) ++ [r] := by
  rw [push, List.drop_append_of_le_length (by omega)]

theorem getLast?_push (h : 0 < cap) (log : List ρ) (r : ρ) :
    (push cap log r).getLast? = some r := by
  rw [push_eq_concat h, List.getLast?_concat]

theorem dropLast_push (h : 0 < cap) (log : List ρ) (r : ρ) :
    (push cap log r).dropLast = log.drop (log.length + 1 - cap) := by
  rw [push_eq_concat h, List.dropLast_concat]

/-- A nonempty part of the log at its end: the new record, and a part of the old log. -/
theorem suffix_push (h : log' <:+ push cap log r) (h0 : log' ≠ []) :
    ∃ init, log' = init ++ [r] ∧ init <:+ log := by
  have hs : log' <:+ log ++ [r] := h.trans (List.drop_suffix _ _)
  rw [List.suffix_concat_iff] at hs
  obtain h | ⟨init, rfl, hi⟩ := hs
  · exact absurd h h0
  · exact ⟨init, rfl, hi⟩

/-! ### Edits -/

/-- What edits do, what they record, and what undoing from a record does. -/
structure Editor (α ε ρ : Type*) where
  /-- The edit may be made. -/
  Valid : ε → α → Prop
  /-- The effect of the edit. -/
  apply : ε → α → α
  /-- What is recorded for the edit. -/
  record : ε → α → ρ
  /-- Undoing from a record, which may fail. -/
  revert : ρ → α → Option α
  revert_record : ∀ e a, Valid e a → revert (record e a) (apply e a) = some a

namespace Editor

variable (E : Editor α ε ρ)

/-- Every edit of the list may be made when its turn comes. -/
def ValidRun : List ε → α → Prop
  | [], _ => True
  | e :: es, a => E.Valid e a ∧ ValidRun es (E.apply e a)

/-- One edit, with its record added to a log of at most `cap` records. -/
def step (cap : ℕ) (p : α × List ρ) (e : ε) : α × List ρ :=
  (E.apply e p.1, push cap p.2 (E.record e p.1))

/-- Edits, one after the other. -/
def run (cap : ℕ) (es : List ε) (p : α × List ρ) : α × List ρ := es.foldl (E.step cap) p

/-- Undo from the newest record. -/
def undo (p : α × List ρ) : Option (α × List ρ) :=
  p.2.getLast?.bind fun r => (E.revert r p.1).map fun a => (a, p.2.dropLast)

/-- Undo `n` times. -/
def undoN : ℕ → α × List ρ → Option (α × List ρ)
  | 0, p => some p
  | n + 1, p => (E.undo p).bind (undoN n)

variable {E} {es : List ε} {e : ε} {a : α} {p : α × List ρ}

theorem validRun_concat : ∀ {es : List ε} {a : α},
    E.ValidRun (es ++ [e]) a ↔
      E.ValidRun es a ∧ E.Valid e (es.foldl (fun a e => E.apply e a) a)
  | [], a => by simp [ValidRun]
  | e' :: es, a => by
    rw [List.cons_append, ValidRun, ValidRun, validRun_concat, and_assoc, List.foldl_cons]

theorem run_fst (cap : ℕ) (es : List ε) (p : α × List ρ) :
    (E.run cap es p).1 = es.foldl (fun a e => E.apply e a) p.1 := by
  induction es generalizing p with
  | nil => rfl
  | cons e es ih => exact ih (E.step cap p e)

theorem run_concat (cap : ℕ) (es : List ε) (e : ε) (p : α × List ρ) :
    E.run cap (es ++ [e]) p = E.step cap (E.run cap es p) e := by
  rw [run, List.foldl_append]
  rfl

/-- A run leaves a record of every edit, up to the size of the log. -/
theorem le_length_run (cap : ℕ) (es : List ε) (p : α × List ρ) :
    min es.length cap ≤ (E.run cap es p).2.length := by
  induction es using List.reverseRecOn with
  | nil => simp
  | append_singleton es e ih =>
    rw [run_concat, step, length_push, List.length_append, List.length_singleton]
    omega

theorem undo_concat {init : List ρ} {r : ρ} {a' : α} (h : E.revert r a = some a') :
    E.undo (a, init ++ [r]) = some (a', init) := by
  simp [undo, h]

/-- Undoing after a run, from any part of the log at its end. -/
theorem undoN_suffix {n : ℕ} (hv : E.ValidRun es p.1) (hn : n ≤ es.length)
    (hlog : log' <:+ (E.run cap es p).2) (hlen : n ≤ log'.length) :
    ∃ log'', E.undoN n ((E.run cap es p).1, log') =
      some ((E.run cap (es.take (es.length - n)) p).1, log'') ∧ log''.length + n = log'.length := by
  induction n generalizing es log' with
  | zero => exact ⟨log', by simp [undoN], by simp⟩
  | succ n ih =>
    -- the last edit is undone from its record, the rest of the log is a part of the log before it
    obtain ⟨es, e, rfl⟩ : ∃ es' e, es = es' ++ [e] := by
      rcases List.eq_nil_or_concat es with rfl | ⟨es', e, rfl⟩
      · simp at hn
      · exact ⟨es', e, by simp⟩
    rw [validRun_concat, ← run_fst cap] at hv
    rw [run_concat, step] at hlog
    obtain ⟨init, rfl, hi⟩ := suffix_push hlog (by rintro rfl; simp at hlen)
    simp only [List.length_append, List.length_singleton] at hn hlen ⊢
    obtain ⟨log'', hu, hl⟩ := ih hv.1 (by omega) hi (by omega)
    refine ⟨log'', ?_, by omega⟩
    rw [undoN, run_concat, step, undo_concat (E.revert_record _ _ hv.2), Option.bind_some, hu,
      List.take_append_of_le_length (by omega), Nat.add_sub_add_right]

/-- After a run of edits on any log, undoing `n` times leads back to before the last `n` edits,
as long as `n` records fit into the log. -/
theorem undoN_run {n : ℕ} (hv : E.ValidRun es p.1) (hn : n ≤ min es.length cap) :
    ∃ log'', E.undoN n (E.run cap es p) =
      some ((E.run cap (es.take (es.length - n)) p).1, log'') := by
  have hlen := le_length_run (E := E) cap es p
  obtain ⟨log'', h, -⟩ := undoN_suffix (E := E) (n := n) hv (by omega)
    (List.suffix_refl (E.run cap es p).2) (by omega)
  exact ⟨log'', h⟩

end Editor

end Undo
