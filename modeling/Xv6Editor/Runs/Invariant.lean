import Xv6Editor.Display.Returns

/-!
# The representation invariant over runs

`RepInv s k` is the invariant of the editor at the prompt in the terms of the source, for a text
of `k` lines.  `Run disp k s₀ s` is a run from the first prompt `s₀` to the prompt `s` in which the
text never has more than `k` lines.

* `Run.abs` : along a run the memory holds a well-formed document.
* `repInv_of_run` : the invariant holds at every prompt of a run with at most 255 lines; and no line
  has a newline, if no NUL was typed.
-/

namespace Xv6Editor

/-- The invariant of the editor at the prompt, for a text of `k` lines. -/
structure RepInv (s : State) (k : ℕ) : Prop where
  one_le : 1 ≤ k
  le : k ≤ 255
  /-- The slots before `k` hold a pointer, the others are NULL. -/
  text_ne_null : ∀ i (h : i < 256), s.text[i] ≠ none ↔ i < k
  /-- The lines are in different blocks. -/
  distinct : ∀ (i j : ℕ) (p : Ptr), s.text[i]? = some (some p) → s.text[j]? = some (some p) → i = j
  /-- Every line is a terminated string of at most 255 bytes. -/
  line : ∀ (i : ℕ) (p : Ptr), s.text[i]? = some (some p) →
    ∃ b, s.heap.get p = some b ∧ 0 ∈ b.bytes ∧ b.str.length ≤ 255
  lineNumber_eq : s.lineNumber = k - 1
  getLineNumber_eq : getLineNumber s.text = k - 1
  upperBound_ge : -1 ≤ s.upperBound
  upperBound_le : s.upperBound ≤ 19
  /-- So is every undo record. -/
  record : ∀ i : ℕ, i ≤ s.upperBound → ∃ q b, s.commandSet[i]? = some (some q) ∧
    s.heap.get q = some b ∧ 0 ∈ b.bytes ∧ b.str.length ≤ 255
  /-- The records are in different blocks, too, -/
  record_distinct : ∀ (i j : ℕ) (q : Ptr), i ≤ s.upperBound → j ≤ s.upperBound →
    s.commandSet[i]? = some (some q) → s.commandSet[j]? = some (some q) → i = j
  /-- and these are not those of the lines. -/
  record_ne_line : ∀ (i j : ℕ) (q : Ptr), i ≤ s.upperBound →
    s.commandSet[i]? = some (some q) → s.text[j]? ≠ some (some q)

/-- The array `text` holds the lines `ls`, and NULL behind them. -/
structure HasText (s : State) (ls : List Line) : Prop where
  lines_eq : s.lines = ls
  text_ne_null : ∀ i (h : i < 256), s.text[i] ≠ none ↔ i < ls.length

/-- A round at whose end the text has at most `k` lines. -/
def StepWithin (disp : Display) (k : ℕ) (s s' : State) : Prop :=
  Step disp s s' ∧ s'.lines.length ≤ k

/-- A run from the first prompt `s₀` to the prompt `s`, with at most `k` lines all the time. -/
structure Run (disp : Display) (k : ℕ) (s₀ s : State) : Prop where
  initial : Initial disp s₀
  length_le : s₀.lines.length ≤ k
  steps : Relation.ReflTransGen (StepWithin disp k) s₀ s

/-- Whether `n` more rounds come back to the prompt, with at most `k` lines all the time, and end
in a state with `p`. -/
def checkRun (disp : Display) (k : ℕ) (p : State → Bool) : ℕ → Except Halt State → Bool
  | _, .error _ => false
  | 0, .ok s => s.lines.length ≤ k && p s
  | n + 1, .ok s => s.lines.length ≤ k && checkRun disp k p n (promptStep disp s)

/-- Whether a computation returns a state with `p`. -/
def returns (r : Except Halt State) (p : State → Bool) : Bool :=
  match r with
  | .ok s => p s
  | .error _ => false

/-- An editor that is started on `file` and gets the input `input`, with a kernel that serves
every call. -/
def Boot.session (file : Option (List UInt8)) (input : List UInt8) : Boot where
  junk _ := Block.zero 256
  page0 := []
  stdin := input
  file := file
  answers := []

variable {disp : Display} {zt : Prop} {s s₀ s' : State} {d d' : Doc} {ps qs : List Ptr}
  {ls log : List Line} {k n : ℕ} {p : State → Bool}

/-! ### Running the model -/

theorem StepWithin.of_checkRun (h : checkRun disp k p n (.ok s) = true) :
    s.lines.length ≤ k ∧ ∃ s', Relation.ReflTransGen (StepWithin disp k) s s' ∧ p s' = true := by
  induction n generalizing s with
  | zero =>
    simp only [checkRun, Bool.and_eq_true, decide_eq_true_eq] at h
    exact ⟨h.1, s, .refl, h.2⟩
  | succ n ih =>
    simp only [checkRun, Bool.and_eq_true, decide_eq_true_eq] at h
    cases hs : promptStep disp s with
    | error e =>
      rw [hs] at h
      cases n <;> cases h.2
    | ok s₁ =>
      rw [hs] at h
      obtain ⟨hk, s', hr, hp⟩ := ih h.2
      exact ⟨h.1, s', .head ⟨hs, hk⟩ hr, hp⟩

/-- A run found by evaluation. -/
theorem Run.of_checkRun (disp : Display) (k n : ℕ) (p : State → Bool) (b : Boot)
    (reads : List (List UInt8)) (hc : ∀ bs, b.file = some bs → Cuts bs reads)
    (h : checkRun disp k p n (main disp b reads) = true) :
    ∃ s₀ s, main disp b reads = .ok s₀ ∧ Run disp k s₀ s ∧ p s = true := by
  cases hm : main disp b reads with
  | error e =>
    rw [hm] at h
    cases n <;> cases h
  | ok s₀ =>
    rw [hm] at h
    obtain ⟨hk, s, hr, hp⟩ := StepWithin.of_checkRun h
    exact ⟨s₀, s, rfl, ⟨⟨b, reads, hc, hm⟩, hk, hr⟩, hp⟩

theorem exists_of_returns {r : Except Halt State} (h : returns r p = true) :
    ∃ s, r = .ok s ∧ p s = true := by
  cases r with
  | error e => cases h
  | ok s => exact ⟨s, rfl, h⟩

theorem Reachable.of_main {b : Boot} {reads : List (List UInt8)}
    (hc : ∀ bs, b.file = some bs → Cuts bs reads) (h : main disp b reads = .ok s) :
    Reachable disp s :=
  ⟨s, ⟨b, reads, hc, h⟩, .refl⟩

theorem Reachable.trans (h : Reachable disp s) (hs : Relation.ReflTransGen (Step disp) s s') :
    Reachable disp s' := by
  obtain ⟨s₀, hi, h⟩ := h
  exact ⟨s₀, hi, h.trans hs⟩

/-! ### States and documents -/

theorem Rep.lineSlots_eq (H : Rep zt s ps ls qs log) : s.lineSlots = ps := by
  rw [State.lineSlots, H.text_eq, takeWhile_slots]

theorem Heap.Holds.strings {h : Heap (Block 256)} (H : h.Holds (IsLine zt) ps ls) :
    (ps.map fun p => ((h.get p).map Block.str).getD []) = ls := by
  apply List.ext_getElem?
  intro i
  rw [List.getElem?_map]
  cases hp : ps[i]? with
  | none =>
    rw [List.getElem?_eq_none_iff, H.1, ← List.getElem?_eq_none_iff] at hp
    rw [hp]
    rfl
  | some p =>
    obtain ⟨l, b, hl, hb, hbl⟩ := H.exists_block hp
    simp [hl, hb, hbl.2.1]

theorem Rep.lines_eq (H : Rep zt s ps ls qs log) : s.lines = ls := by
  rw [State.lines, H.lineSlots_eq]
  exact H.lines_holds.strings

theorem Rep.log_eq (H : Rep zt s ps ls qs log) : s.log = log := by
  have hu : (s.upperBound + 1).toNat = qs.length := by
    have := H.upperBound_eq
    omega
  rw [State.log, hu, H.commands_eq, List.filterMap_map, Function.id_comp, List.filterMap_some]
  exact H.log_holds.strings

theorem Mem.lines_eq (M : Mem zt s d) : s.lines = d.lines := by
  obtain ⟨ps, qs, H⟩ := M.rep
  exact H.lines_eq

theorem Mem.log_eq (M : Mem zt s d) : s.log = d.log := by
  obtain ⟨ps, qs, H⟩ := M.rep
  exact H.log_eq

theorem Rep.text_eq_some (H : Rep zt s ps ls qs log) {i : ℕ} {p : Ptr}
    (h : s.text[i]? = some (some p)) : ps[i]? = some p := by
  have hi : i < 256 := by
    obtain ⟨h, -⟩ := Vector.getElem?_eq_some_iff.1 h
    exact h
  rw [← Vector.getElem?_toList, H.text_eq, getElem?_slots hi H.length_ps] at h
  exact Option.some.inj h

theorem Rep.text_ne_null (H : Rep zt s ps ls qs log) (i : ℕ) (hi : i < 256) :
    s.text[i] ≠ none ↔ i < ls.length := by
  have h : s.text[i]? = some ps[i]? := by
    rw [← Vector.getElem?_toList, H.text_eq, getElem?_slots hi H.length_ps]
  rw [Vector.getElem?_eq_getElem hi, Option.some.injEq] at h
  rw [h, Ne, List.getElem?_eq_none_iff, H.length_eq, not_le]

theorem Rep.hasText (H : Rep zt s ps ls qs log) : HasText s ls := ⟨H.lines_eq, H.text_ne_null⟩

theorem Mem.hasText (M : Mem zt s d) : HasText s d.lines := by
  obtain ⟨ps, qs, H⟩ := M.rep
  exact H.hasText

theorem Rep.commandSet_eq (H : Rep zt s ps ls qs log) {i : ℕ} (hi : i ≤ s.upperBound) :
    ∃ q, qs[i]? = some q ∧ s.commandSet[i]? = some (some q) := by
  have hu := H.upperBound_eq
  have hlt : i < qs.length := by omega
  refine ⟨qs[i], List.getElem?_eq_getElem hlt, ?_⟩
  rw [← Vector.getElem?_toList, ← List.getElem?_take_of_lt hlt, H.commands_eq, List.getElem?_map,
    List.getElem?_eq_getElem hlt]
  rfl

theorem Rep.commandSet_eq_some (H : Rep zt s ps ls qs log) {i : ℕ} {q : Ptr}
    (hi : i ≤ s.upperBound) (h : s.commandSet[i]? = some (some q)) : qs[i]? = some q := by
  obtain ⟨q', hq, hc⟩ := H.commandSet_eq hi
  cases h.symm.trans hc
  exact hq

/-- The invariant holds at the prompt of every state that holds a document. -/
theorem Abs.repInv (A : Abs zt s d) (h0 : d.lines ≠ []) (hk : d.lines.length ≤ 255) :
    RepInv s d.lines.length := by
  obtain ⟨ps, qs, H⟩ := A.rep
  have hlen := H.length_eq
  exact
    { one_le := List.length_pos_of_ne_nil h0
      le := hk
      text_ne_null := H.text_ne_null
      distinct := fun i j p hi hj => by
        have hi' := H.text_eq_some hi
        obtain ⟨hlt, -⟩ := List.getElem?_eq_some_iff.1 hi'
        exact (List.getElem?_inj hlt H.nodup_ps).1 (hi'.trans (H.text_eq_some hj).symm)
      line := fun i p hp => by
        obtain ⟨l, b, -, hb, hbl⟩ := H.lines_holds.exists_block (H.text_eq_some hp)
        have := Block.length_str_lt hbl.1
        exact ⟨b, hb, hbl.1, by omega⟩
      lineNumber_eq := A.lineNumber_eq
      getLineNumber_eq := H.getLineNumber_eq
      upperBound_ge := by have := H.upperBound_eq; omega
      upperBound_le := by have := H.upperBound_eq; have := H.length_qs; omega
      record := fun i hi => by
        obtain ⟨q, hq, hc⟩ := H.commandSet_eq hi
        obtain ⟨r, b, -, hb, hbr⟩ := H.log_holds.exists_block hq
        have := Block.length_str_lt hbr.1
        exact ⟨q, b, hc, hb, hbr.1, by omega⟩
      record_distinct := fun i j q hi hj hqi hqj => by
        have hi' := H.commandSet_eq_some hi hqi
        obtain ⟨hlt, -⟩ := List.getElem?_eq_some_iff.1 hi'
        exact (List.getElem?_inj hlt H.nodup_qs).1 (hi'.trans (H.commandSet_eq_some hj hqj).symm)
      record_ne_line := fun i j q hi hq hp =>
        H.ne_of_mem (List.mem_of_getElem? (H.text_eq_some hp))
          (List.mem_of_getElem? (H.commandSet_eq_some hi hq)) rfl }

/-- The state in which a file has been opened with one read. -/
theorem exists_session (zt : Prop) (file input : List UInt8) (h0 : zt → 0 ∉ file) :
    ∃ s, Abs zt s ((Boot.session (some file) input).doc [file]) := by
  obtain ⟨s, -, A, -⟩ : ∃ s, openFile (.session (some file) input) [file] = .ok s ∧
    Abs zt s _ ∧ _ := openFile_some rfl fun h => by rw [List.flatten_singleton]; exact h0 h
  exact ⟨s, A⟩

/-- Every list of at most 256 lines is the text of some state. -/
theorem exists_abs (input : List UInt8) (h0 : ls ≠ []) (hn : NoNewline ls)
    (hl : ∀ l ∈ ls, 0 ∉ l ∧ l.length < 256) (hk : ls.length ≤ 256) :
    ∃ s d, Abs False s d ∧ d.lines = ls ∧ d.stdin = input ∧ d.changed = false := by
  obtain ⟨s, A⟩ := exists_session False (joinLines ls) input False.elim
  exact ⟨s, _, A, loadLines_joinLines hn hl hk h0 List.flatten_singleton, rfl, rfl⟩

theorem exists_pointers {n k : ℕ} (v : Vector (Option Ptr) n)
    (h : ∀ i < k, ∃ p, v[i]? = some (some p)) :
    ∃ ps : List Ptr, ps.length = k ∧ v.toList.take k = ps.map some ∧
      ∀ (i : ℕ) (p : Ptr), ps[i]? = some p → v[i]? = some (some p) := by
  induction k with
  | zero => exact ⟨[], rfl, rfl, by simp⟩
  | succ k ih =>
    obtain ⟨ps, hlen, hps, hv⟩ := ih fun i hi => h i (by omega)
    obtain ⟨p, hp⟩ := h k (Nat.lt_succ_self k)
    refine ⟨ps ++ [p], by simp [hlen], ?_, fun i q hq => ?_⟩
    · rw [List.take_add_one, Vector.getElem?_toList, hp, hps]
      simp
    · rw [List.getElem?_append] at hq
      split_ifs at hq with hi
      · exact hv i q hq
      · obtain ⟨hi', rfl⟩ := List.getElem?_eq_some_iff.1 hq
        rw [List.length_singleton] at hi'
        obtain rfl : i = k := by omega
        simpa using hp

theorem Heap.holds_strings {h : Heap (Block 256)}
    (hb : ∀ p ∈ ps, ∃ b, h.get p = some b ∧ IsLine zt b b.str) :
    h.Holds (IsLine zt) ps (ps.map fun p => ((h.get p).map Block.str).getD []) := by
  refine ⟨(List.length_map _).symm, fun i p x hp hx => ?_⟩
  obtain ⟨b, hget, hline⟩ := hb p (List.mem_of_getElem? hp)
  rw [List.getElem?_map, hp] at hx
  obtain rfl : b.str = x := by simpa [hget] using hx
  exact ⟨b, hget, hline⟩

theorem nodup_of_slots {n : ℕ} {v : Vector (Option Ptr) n}
    (hv : ∀ (i : ℕ) (p : Ptr), ps[i]? = some p → v[i]? = some (some p))
    (h : ∀ (i j : ℕ) (p : Ptr), i < ps.length → j < ps.length → v[i]? = some (some p) →
      v[j]? = some (some p) → i = j) : ps.Nodup := by
  refine List.nodup_iff_getElem?_ne_getElem?.2 fun i j hij hj heq => ?_
  have hj' := List.getElem?_eq_getElem hj
  exact hij.ne (h i j _ (hij.trans hj) hj (hv i _ (heq.trans hj')) (hv j _ hj'))

theorem text_eq_slots (hk : k ≤ 256) (h : ∀ i (h : i < 256), s.text[i] ≠ none ↔ i < k)
    (hps : ps.length = k)
    (hp : ∀ (i : ℕ) (p : Ptr), ps[i]? = some p → s.text[i]? = some (some p)) :
    s.text.toList = slots ps := by
  apply List.ext_getElem?
  intro i
  by_cases hi : i < 256
  · rw [getElem?_slots hi (by omega), Vector.getElem?_toList]
    cases hpi : ps[i]? with
    | some p => exact hp i p hpi
    | none =>
      rw [List.getElem?_eq_none_iff] at hpi
      rw [Vector.getElem?_eq_getElem hi, not_ne_iff.1 (mt (h i hi).1 (by omega))]
  · rw [List.getElem?_eq_none (by simpa using hi),
      List.getElem?_eq_none (by rw [length_slots (by omega)]; omega)]

theorem exists_slots (hk : k ≤ 256) (h : ∀ i (h : i < 256), s.text[i] ≠ none ↔ i < k) :
    ∃ ps : List Ptr, ps.length = k ∧ s.text.toList = slots ps ∧
      ∀ (i : ℕ) (p : Ptr), ps[i]? = some p → s.text[i]? = some (some p) := by
  obtain ⟨ps, hps, -, hp⟩ := exists_pointers (k := k) s.text fun i hi => by
    have hlt : i < 256 := by omega
    obtain ⟨p, hp⟩ := Option.ne_none_iff_exists'.1 ((h i hlt).2 hi)
    exact ⟨p, by rw [Vector.getElem?_eq_getElem hlt, hp]⟩
  exact ⟨ps, hps, text_eq_slots hk h hps hp, hp⟩

/-- Conversely a state with the invariant holds a document. -/
theorem RepInv.abs (R : RepInv s k) :
    ∃ d, Abs False s d ∧ d.lines.length = k := by
  have hle := R.le
  have hge := R.upperBound_ge
  have hub := R.upperBound_le
  obtain ⟨ps, hps, htext, hp⟩ := exists_slots (by omega) R.text_ne_null
  obtain ⟨qs, hqs, hqtake, hq⟩ := exists_pointers (k := (s.upperBound + 1).toNat) s.commandSet
    fun i hi => by
      obtain ⟨q, b, hq, -⟩ := R.record i (by omega)
      exact ⟨q, hq⟩
  have hqi : ∀ (i : ℕ) (q : Ptr), qs[i]? = some q → i ≤ s.upperBound := fun i q h => by
    obtain ⟨hlt, -⟩ := List.getElem?_eq_some_iff.1 h
    omega
  have hnodup : (ps ++ qs).Nodup := by
    refine List.nodup_append.2 ⟨nodup_of_slots hp fun i j p _ _ => R.distinct i j p,
      nodup_of_slots hq fun i j q hi hj => R.record_distinct i j q (by omega) (by omega),
      fun p hpm q hqm hpq => ?_⟩
    obtain ⟨i, hi⟩ := List.mem_iff_getElem?.1 hpm
    obtain ⟨j, hj⟩ := List.mem_iff_getElem?.1 hqm
    exact R.record_ne_line j i q (hqi j q hj) (hq j q hj) (hpq ▸ hp i p hi)
  have H : Rep False s ps _ qs _ :=
    { text_eq := htext
      length_ps := by omega
      lines_holds := Heap.holds_strings fun p hm => by
        obtain ⟨i, hi⟩ := List.mem_iff_getElem?.1 hm
        obtain ⟨b, hb, h0, -⟩ := R.line i p (hp i p hi)
        exact ⟨b, hb, h0, rfl, False.elim⟩
      commands_eq := by rw [hqs, hqtake]
      length_qs := by omega
      upperBound_eq := by omega
      log_holds := Heap.holds_strings fun q hm => by
        obtain ⟨i, hi⟩ := List.mem_iff_getElem?.1 hm
        obtain ⟨q', b, hq', hb, h0, -⟩ := R.record i (hqi i q hi)
        cases hq'.symm.trans (hq i q hi)
        exact ⟨b, hb, h0, rfl, False.elim⟩
      nodup := hnodup }
  refine ⟨⟨_, _, s.changed, s.stdin, s.disk, s.page0⟩,
    { rep := ⟨ps, qs, H⟩, changed_eq := rfl, stdin_eq := rfl, disk_eq := rfl, page0_eq := rfl,
      lineNumber_eq := ?_ }, ?_⟩
  · rw [R.lineNumber_eq, List.length_map, hps]
  · rw [List.length_map, hps]

/-! ### Runs -/

theorem Boot.doc_noNewline (b : Boot) (reads : List (List UInt8)) :
    NoNewline (b.doc reads).lines := by
  cases hf : b.file with
  | none => simp [Boot.lines_doc_none hf, NoNewline]
  | some bs => exact Boot.lines_doc_some hf reads ▸ noNewline_loadLines reads

theorem Boot.doc_wf (b : Boot) (reads : List (List UInt8)) : (b.doc reads).Wf :=
  ⟨b.doc_lines_ne reads, fun _ hr => nomatch hr⟩

/-- The first prompt holds a well-formed document. -/
theorem Initial.abs (h : Initial disp s) :
    ∃ d, Abs False s d ∧ d.Wf ∧ (0 ∉ s.stdin → d.Plain) := by
  obtain ⟨b, reads, -, hm⟩ := h
  have A : Abs False s _ := .of_main False.elim hm
  refine ⟨_, A, b.doc_wf reads, fun h0 => ?_⟩
  exact ⟨b.doc_noNewline reads, fun r hr => (nomatch hr), A.stdin_eq ▸ h0⟩

theorem Abs.step_of_ok (A : Abs False s d) (W : d.Wf) (hk : d.lines.length ≤ 255)
    (h : Step disp s s') : ∃ d', d.step = some d' ∧ Abs False s' d' ∧ d'.Wf := by
  obtain ⟨d', hd, A'⟩ := (A.promptStep disp W.lines_ne hk W.newest).exists_doc h
  exact ⟨d', hd, A'.mono False.elim, W.step hk hd⟩

/-- Along a run the memory holds a well-formed document. -/
theorem Run.abs (R : Run disp 255 s₀ s) :
    ∃ d, Abs False s d ∧ d.Wf ∧ d.lines.length ≤ 255 ∧ (0 ∉ s₀.stdin → d.Plain) := by
  obtain ⟨hi, hk, hs⟩ := R
  induction hs with
  | refl =>
    obtain ⟨d, A, W, P⟩ := hi.abs
    exact ⟨d, A, W, A.lines_eq ▸ hk, P⟩
  | tail _ hstep ih =>
    obtain ⟨d, A, W, hd, P⟩ := ih
    obtain ⟨d', hd', A', W'⟩ := A.step_of_ok W hd hstep.1
    exact ⟨d', A', W', A'.lines_eq ▸ hstep.2, fun h0 => (P h0).step hd hd'⟩

/-- At every prompt of a run with at most 255 lines the invariant holds; and if no NUL was typed,
no line has a newline. -/
theorem repInv_of_run (R : Run disp 255 s₀ s) :
    ∃ k, RepInv s k ∧ (0 ∉ s₀.stdin → NoNewline s.lines) := by
  obtain ⟨d, A, W, hk, P⟩ := R.abs
  exact ⟨_, A.repInv W.lines_ne hk, fun h0 => A.lines_eq ▸ (P h0).lines⟩

theorem repInv_of_run_session : ∃ s₀ s, Run showTextSyntaxHighlighting 255 s₀ s ∧
    ∃ k, RepInv s k ∧ (0 ∉ s₀.stdin → NoNewline s.lines) := by
  obtain ⟨s₀, s, -, R, -⟩ := Run.of_checkRun showTextSyntaxHighlighting 255 4
    (fun s => s.lines = [bytesOf "int x;", bytesOf "y"] ∧ s.log = [])
    (.session (some (bytesOf "int x;\ny")) (bytesOf "ins-1 //\nrb\nmod-2\nz\nrb\n"))
    [bytesOf "int x;\ny"] (by rintro _ ⟨⟩; decide) (by decide +kernel)
  exact ⟨s₀, s, R, repInv_of_run R⟩

/-- A NUL in the input hides the rest of the line from `strlen`, so that its newline stays: the
content of this `ins` ends in one. -/
theorem exists_run_newline : ∃ s₀ s, Run showTextSyntaxHighlighting 255 s₀ s ∧
    ¬ NoNewline s.lines := by
  obtain ⟨s₀, hm, A₀⟩ := main_shown showTextSyntaxHighlighting
    (.session none (bytesOf "insx\x00 foo\n")) [] rfl (shows_highlighting (by decide) (by decide))
  obtain ⟨s, hs, A, -⟩ := A₀.step_shown (Boot.doc_wf _ _) (by decide) rfl
    (shows_highlighting (by decide) (by decide))
  have hl : s.lines = [bytesOf "foo\n", []] := A.lines_eq
  have R : Run showTextSyntaxHighlighting 255 s₀ s :=
    ⟨⟨_, _, by rintro _ ⟨⟩, hm⟩, by rw [A₀.lines_eq]; decide, .single ⟨hs, by rw [hl]; decide⟩⟩
  exact ⟨s₀, s, R, fun hn => hn (bytesOf "foo\n") (by simp [hl]) (by decide)⟩

end Xv6Editor
