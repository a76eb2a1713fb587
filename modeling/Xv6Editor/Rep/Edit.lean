import Xv6Editor.Editor.Phases
import Xv6Editor.Rep.Shift
import Xv6Editor.Rep.Log

/-!
# The editing commands compute on lines

`Mem zt s d` says that the memory of `s` holds the document `d`.  For `com_ins`, `com_mod`,
`com_del` and `com_init_file` the theorems say: run in a state that holds `d`, they return a state
that holds the document the abstract command makes of `d`, or end in the display of such a state
(`EndsIn`).
-/

namespace Xv6Editor

/-- The memory of `s` holds the document `d`. -/
structure Mem (zt : Prop) (s : State) (d : Doc) : Prop where
  rep : ∃ ps qs, Rep zt s ps d.lines qs d.log
  changed_eq : s.changed = d.changed
  stdin_eq : s.stdin = d.stdin
  disk_eq : s.disk = d.disk
  page0_eq : s.page0 = d.page0

/-- `r` returns a state with `Q`, or it ends because the display of a state with `P` does. -/
def EndsIn (disp : Display) (P Q : State → Prop) (r : Except Halt State) : Prop :=
  (∃ s, r = .ok s ∧ Q s) ∨ ∃ s e, P s ∧ disp s = .error e ∧ r = .error e

variable {disp : Display} {P Q P' Q' : State → Prop} {zt : Prop} {s s' : State} {d d' : Doc}
  {ps qs : List Ptr} {ls log : List Line} {n : ℤ} {c extra : Line} {r : Except Halt State}

/-! ### Results -/

theorem EndsIn.ok (h : Q s) : EndsIn disp P Q (.ok s) := .inl ⟨s, rfl, h⟩

theorem EndsIn.autoDisplay (hP : P s) (hQ : ∀ out, Q (s.print out)) (hs : Q s) :
    EndsIn disp P Q (autoDisplay disp s) := by
  unfold Xv6Editor.autoDisplay
  split_ifs
  · cases hd : disp s with
    | error e => exact .inr ⟨s, e, hP, hd, rfl⟩
    | ok out => exact .inl ⟨s.print out, rfl, hQ out⟩
  · exact .ok hs

theorem EndsIn.bind_ok {f : State → State} (h : EndsIn disp P Q r) (hQ : ∀ s, Q s → Q' (f s)) :
    EndsIn disp P Q' (r >>= fun s => .ok (f s)) := by
  obtain ⟨s, rfl, hs⟩ | ⟨s, e, hs, hd, rfl⟩ := h
  · exact .inl ⟨f s, rfl, hQ s hs⟩
  · exact .inr ⟨s, e, hs, hd, rfl⟩

theorem EndsIn.imp (h : EndsIn disp P Q r) (hP : ∀ s, P s → P' s) (hQ : ∀ s, Q s → Q' s) :
    EndsIn disp P' Q' r := by
  obtain ⟨s, rfl, hs⟩ | ⟨s, e, hs, hd, rfl⟩ := h
  · exact .inl ⟨s, rfl, hQ s hs⟩
  · exact .inr ⟨s, e, hP s hs, hd, rfl⟩

theorem EndsIn.of_ok (h : EndsIn disp P Q r) (hr : r = .ok s) : Q s := by
  obtain ⟨s', rfl, hs⟩ | ⟨s', e, -, -, rfl⟩ := h
  · cases hr
    exact hs
  · cases hr

/-- Without a display the result is always a state. -/
theorem EndsIn.exists_ok (h : EndsIn noDisplay P Q r) : ∃ s, r = .ok s ∧ Q s := by
  obtain h | ⟨s, e, -, hd, -⟩ := h
  · exact h
  · cases hd

/-! ### Reading -/

theorem Mem.print_stdin (M : Mem zt s d) (out : List Piece) : (s.print out).stdin = d.stdin :=
  M.stdin_eq

/-- Reading the content of `ins` or `mod`: it fails at the end of the input, or gives a string. -/
theorem Mem.readContent (M : Mem zt s d) (h0 : 0 ∉ extra) (hlen : extra.length < 256) :
    d.readContent extra = none ∧ readContent s extra = fail (.inputIndex (-1)) ∨
    ∃ c st out, d.readContent extra = some (c, { d with stdin := st }) ∧
      readContent s extra = .ok (c, { s with stdin := st, console := out }) ∧
      0 ∉ c ∧ c.length < 256 := by
  unfold Xv6Editor.readContent Doc.readContent
  split_ifs with he
  · rw [getLine_eq, Doc.getLine, M.print_stdin]
    split_ifs with hg
    · exact .inl ⟨rfl, rfl⟩
    · refine .inr ⟨_, _, _, rfl, rfl, fun h => ?_, ?_⟩
      · exact zero_notMem_cstr _ (List.dropLast_subset _ h)
      · have h1 := length_gets_le d.stdin
        have h2 := (cstr_sublist (gets d.stdin).1).length_le
        rw [List.length_dropLast]
        omega
  · exact .inr ⟨extra, d.stdin, s.console, rfl, by rw [← M.stdin_eq], h0, hlen⟩

/-! ### The lines -/

theorem exists_line_number (h : ¬(n ≤ 0 ∨ n > d.lines.length)) :
    ∃ m : ℕ, n = (m + 1 : ℕ) ∧ m < d.lines.length :=
  ⟨(n - 1).toNat, by omega, by omega⟩

theorem toNat_line_number (m : ℕ) : (((m + 1 : ℕ) : ℤ) - 1).toNat = m := by omega

variable {m : ℕ} {flag : Bool}

theorem Rep.copyLine (H : Rep zt s ps ls qs log) {l : Line} (hl : ls[m]? = some l) (flag : Bool) :
    Xv6Editor.copyLine s m flag = .ok (if flag then some l else none, s) := by
  cases flag with
  | false => rfl
  | true => simp only [Xv6Editor.copyLine, if_true, H.slotStr_eq hl, bind, Except.bind]

/-- The copy for the record of a line after the last one is made from address 0. -/
theorem Rep.copyLine_null (H : Rep zt s ps ls qs log) (hk : ls.length ≤ 255) (flag : Bool) :
    Xv6Editor.copyLine s ls.length flag = .ok (if flag then some s.page0 else none,
      { s with nullReads := if flag then s.nullReads ++ [ls.length] else s.nullReads }) := by
  cases flag with
  | false => rfl
  | true =>
    have hnull := H.slotStr_null le_rfl (show ls.length < 256 by omega)
    simp only [Xv6Editor.copyLine, if_true, hnull, bind, Except.bind]

theorem Rep.putLine (H : Rep zt s ps ls qs log) (hm : m < ls.length) (hc : 0 ∉ c)
    (hlen : c.length < 256) :
    ∃ h, Xv6Editor.putLine s m c = .ok { s with heap := h } ∧
      Rep zt { s with heap := h } ps (ls.set m c) qs log := by
  obtain ⟨h₁, h₂, hm₁, -, hm₂, H₂⟩ := H.memset_strcpy hm hc hlen
  exact ⟨h₂, by simp only [Xv6Editor.putLine, bind, Except.bind, hm₁, hm₂], H₂⟩

theorem Rep.finishEdit (disp : Display) (H : Rep zt s ps ls qs log) (op : String) (n : ℤ)
    {part4 : Option Line} (hr : ∀ l, part4 = some l → IsRecord (undoRecord op n l)) :
    ∃ cs h u qs', Xv6Editor.finishEdit disp s op n part4 =
        autoDisplay disp { s with changed := true, commandSet := cs, heap := h, upperBound := u } ∧
      Rep zt { s with changed := true, commandSet := cs, heap := h, upperBound := u } ps ls qs'
        (part4.elim log fun l => Undo.push 20 log (undoRecord op n l)) := by
  have H₁ : Rep zt { s with changed := true } ps ls qs log := H.congr rfl rfl rfl rfl
  cases part4 with
  | none => exact ⟨s.commandSet, s.heap, s.upperBound, qs, rfl, H₁⟩
  | some l =>
    obtain ⟨cs, h, u, qs', hrec, H₂⟩ := H₁.recordCommand (hr l rfl).spec.1 (hr l rfl).spec.2
    refine ⟨cs, h, u, qs', ?_, H₂⟩
    simp only [Xv6Editor.finishEdit, hrec, bind, Except.bind]

theorem elim_ite_some {α β : Type} (flag : Bool) (a : α) (b : β) (f : α → β) :
    (if flag then some a else none).elim b f = if flag then f a else b := by
  cases flag with
  | false => rfl
  | true => rfl

theorem Rep.modText (H : Rep zt s ps ls qs log) (hm : m < ls.length) {l : Line}
    (hl : ls[m]? = some l) {st : List UInt8} {out : List Piece}
    (hr : Xv6Editor.readContent s extra = .ok (c, { s with stdin := st, console := out }))
    (hc : 0 ∉ c) (hlen : c.length < 256) (flag : Bool) :
    ∃ h, Xv6Editor.modText s (m + 1 : ℕ) extra flag = .ok (if flag then some l else none,
        { s with stdin := st, console := out, heap := h }) ∧
      Rep zt { s with stdin := st, console := out, heap := h } ps (ls.set m c) qs log := by
  have H₁ : Rep zt { s with stdin := st, console := out } ps ls qs log := H.congr rfl rfl rfl rfl
  obtain ⟨h, hput, H₂⟩ := H₁.putLine hm hc hlen
  refine ⟨h, ?_, H₂⟩
  simp only [Xv6Editor.modText, toNat_line_number, hr, H₁.copyLine hl, hput, bind, Except.bind]

theorem Rep.comMod (disp : Display) (H : Rep zt s ps ls qs log) (hm : m < ls.length) {l : Line}
    (hl : ls[m]? = some l) {st : List UInt8} {out : List Piece}
    (hr : Xv6Editor.readContent s extra = .ok (c, { s with stdin := st, console := out }))
    (hc : 0 ∉ c) (hlen : c.length < 256) (flag : Bool) :
    ∃ cs h u qs', Xv6Editor.comMod disp s (m + 1 : ℕ) extra flag =
        autoDisplay disp { s with
          stdin := st, console := out, changed := true, commandSet := cs, heap := h,
          upperBound := u } ∧
      Rep zt { s with
          stdin := st, console := out, changed := true, commandSet := cs, heap := h,
          upperBound := u } ps (ls.set m c) qs'
        (if flag then Undo.push 20 log (undoRecord "mod-" (m + 1 : ℕ) l) else log) := by
  have hle := H.length_ps
  have hlen' := H.length_eq
  have hg : ¬(((m + 1 : ℕ) : ℤ) ≤ 0 ∨ ((m + 1 : ℕ) : ℤ) > getLineNumber s.text + 1) := by
    rw [H.getLineNumber_eq]
    omega
  obtain ⟨h, ht, H₁⟩ := H.modText hm hl hr hc hlen flag
  obtain ⟨cs, h', u, qs', hf, H₂⟩ := H₁.finishEdit disp "mod-" (m + 1 : ℕ)
    fun l _ => isRecord_mod (by omega) l
  rw [elim_ite_some] at H₂
  refine ⟨cs, h', u, qs', ?_, H₂⟩
  rw [comMod_eq, if_neg hg, ht]
  exact hf

theorem Rep.delete (H : Rep zt s ps ls qs log) (hm : m < ls.length) (hk : ls.length ≤ 255) :
    ∃ t h h₁ h₂ i ps', s.memsetSlot m = .ok { s with heap := h₁ } ∧
      delShift 256 m { s with heap := h₁ } = .ok (i, { s with heap := h₂ }) ∧
      releaseSlot { s with heap := h₂ } i = .ok { s with text := t, heap := h } ∧
      Rep zt { s with text := t, heap := h } ps' (delLines ls m) qs log ∧
      (2 ≤ ls.length → ∃ p, ps.getLast? = some p ∧ h.get p = none) := by
  obtain ⟨h₁, hm₁, H₁⟩ := H.memsetSlot hm
  have hlen : (ls.set m []).length = ls.length := List.length_set
  obtain ⟨h₂, ls', hd, H₂, hls⟩ := H₁.delShift_down 256 (i := m) (by omega) (by omega)
    (by omega) (List.getElem?_set_self hm)
  have hlen' : ls'.length = ls.length := by rw [← H₂.length_eq, H.length_eq]
  rw [hlen] at hd hls
  by_cases h1 : ls.length ≤ 1
  · -- the only line stays, empty
    have hls' : ls' = delLines ls m := by
      rw [delLines, if_pos h1]
      apply List.ext_getElem?
      intro j
      rw [hls]
      by_cases hj : j = 0
      · rw [if_pos (by omega), hj]
        rfl
      · rw [if_neg (by omega), if_pos (by omega), List.getElem?_eq_none (by omega),
          List.getElem?_eq_none (by simp; omega)]
    exact ⟨s.text, h₂, h₁, h₂, _, ps, hm₁, hd, if_neg (by omega), hls' ▸ H₂, by omega⟩
  · obtain ⟨p, t, h₃, hp, hf, hset, H₃, hfree⟩ := H₂.free_last (by omega)
    rw [hlen'] at hp hset
    have hls' : ls'.dropLast = delLines ls m := by
      rw [delLines, if_neg h1]
      apply List.ext_getElem?
      intro j
      rw [List.getElem?_dropLast, hls, List.getElem?_eraseIdx, hlen']
      by_cases hj : j < ls.length - 1
      · rw [if_pos hj, if_neg (by omega)]
        by_cases hjm : j < m
        · rw [if_neg (by omega), if_pos hjm, List.getElem?_set_ne (by omega)]
        · rw [if_pos (by omega), if_neg hjm, List.getElem?_set_ne (by omega)]
      · rw [if_neg hj, if_neg (by omega), List.getElem?_eq_none (by omega)]
    refine ⟨t, h₃, h₁, h₂, _, ps.dropLast, hm₁, hd, ?_, hls' ▸ H₃, fun _ => ⟨p, hfree⟩⟩
    rw [releaseSlot, if_pos (by omega)]
    simp only [bind, Except.bind, hp, hf, hset]

theorem Rep.comDel (disp : Display) (H : Rep zt s ps ls qs log) (hm : m < ls.length)
    (hk : ls.length ≤ 255) (flag : Bool) :
    ∃ t h ps', Xv6Editor.comDel disp s (m + 1 : ℕ) flag =
        autoDisplay disp { s with text := t, heap := h, changed := true } ∧
      Rep zt { s with text := t, heap := h, changed := true } ps' (delLines ls m) qs log ∧
      (2 ≤ ls.length → ∃ p, ps.getLast? = some p ∧ h.get p = none) := by
  have hg : ¬(((m + 1 : ℕ) : ℤ) ≤ 0 ∨ ((m + 1 : ℕ) : ℤ) > getLineNumber s.text + 1) := by
    rw [H.getLineNumber_eq]
    omega
  obtain ⟨t, h, h₁, h₂, i, ps', hm₁, hd, hf, H', hfree⟩ := H.delete hm hk
  refine ⟨t, h, ps', ?_, H'.congr rfl rfl rfl rfl, hfree⟩
  rw [Xv6Editor.comDel, if_neg hg]
  cases flag with
  | false =>
    simp only [toNat_line_number, bind, Except.bind, Bool.false_eq_true, if_false, hm₁, hd, hf]
  | true =>
    simp only [toNat_line_number, bind, Except.bind, if_true,
      H.slotStr_eq (List.getElem?_eq_getElem hm), hm₁, hd, hf]

theorem Rep.insText_lt (H : Rep zt s ps ls qs log) (hm : m < ls.length) (hk : ls.length ≤ 255)
    {l : Line} (hl : ls[m]? = some l) {st : List UInt8} {out : List Piece}
    (hr : Xv6Editor.readContent s extra = .ok (c, { s with stdin := st, console := out }))
    (hc : 0 ∉ c) (hlen : c.length < 256) (flag : Bool) :
    ∃ t h ps', insText s (m + 1 : ℕ) extra flag = .ok (if flag then some l else none,
        { s with text := t, stdin := st, console := out, heap := h }) ∧
      Rep zt { s with text := t, stdin := st, console := out, heap := h } ps'
        (ls.insertIdx m c) qs log := by
  have H₁ : Rep zt { s with stdin := st, console := out } ps ls qs log := H.congr rfl rfl rfl rfl
  obtain ⟨p, t, h, ls', hsh, H₂, hm', hls⟩ := H₁.insShift_lt hm hk
  obtain ⟨h', hput, H₃⟩ := H₂.putLine hm' hc hlen
  obtain ⟨q, hq⟩ := H₂.exists_ptr hm'
  refine ⟨t, h', _, ?_, hls c ▸ H₃⟩
  simp only [insText, toNat_line_number, hr, H₁.copyLine hl, hsh, H₂.slot_eq (by omega : m < 256),
    hq, hput, bind, Except.bind]

theorem Rep.comIns_lt (disp : Display) (H : Rep zt s ps ls qs log) (hm : m < ls.length)
    (hk : ls.length ≤ 255) {l : Line} (hl : ls[m]? = some l) {st : List UInt8} {out : List Piece}
    (hr : Xv6Editor.readContent s extra = .ok (c, { s with stdin := st, console := out }))
    (hc : 0 ∉ c) (hlen : c.length < 256) (flag : Bool) :
    ∃ t cs h u ps' qs', Xv6Editor.comIns disp s (m + 1 : ℕ) extra flag =
        autoDisplay disp { s with
          text := t, stdin := st, console := out, changed := true, commandSet := cs, heap := h,
          upperBound := u } ∧
      Rep zt { s with
          text := t, stdin := st, console := out, changed := true, commandSet := cs, heap := h,
          upperBound := u } ps' (ls.insertIdx m c) qs'
        (if flag then Undo.push 20 log (undoRecord "ins-" (m + 1 : ℕ) l) else log) := by
  have hg : ¬(((m + 1 : ℕ) : ℤ) ≤ 0 ∨ ((m + 1 : ℕ) : ℤ) > getLineNumber s.text + 1 + 1) := by
    rw [H.getLineNumber_eq]
    omega
  obtain ⟨t, h, ps', ht, H₁⟩ := H.insText_lt hm hk hl hr hc hlen flag
  obtain ⟨cs, h', u, qs', hf, H₂⟩ := H₁.finishEdit disp "ins-" (m + 1 : ℕ)
    fun l _ => isRecord_ins (by omega) l
  rw [elim_ite_some] at H₂
  refine ⟨t, cs, h', u, ps', qs', ?_, H₂⟩
  rw [comIns_eq, if_neg hg, ht]
  exact hf

/-- Filling an empty last line and adding a new one inserts the content before the last line. -/
theorem concat_nil_set (h : ls[ls.length - 1]? = some []) (c : Line) :
    (ls ++ [[]]).set (ls.length - 1) c = ls.insertIdx (ls.length - 1) c := by
  obtain ⟨h0, -⟩ := List.getElem?_eq_some_iff.1 h
  apply List.ext_getElem?
  intro j
  rw [List.getElem?_set, List.getElem?_insertIdx]
  rcases Nat.lt_trichotomy j (ls.length - 1) with hj | rfl | hj
  · rw [if_neg (by omega), if_pos hj, List.getElem?_append_left (by omega)]
  · rw [if_pos rfl, if_pos (by rw [List.length_append, List.length_singleton]; omega),
      if_neg (by omega), if_pos rfl, if_pos (by omega)]
  · rw [if_neg (by omega), if_neg (by omega), if_neg (by omega)]
    by_cases hj' : j = ls.length
    · subst hj'
      rw [h, List.getElem?_concat_length]
    · rw [List.getElem?_eq_none (by simp; omega), List.getElem?_eq_none (by omega)]

/-- What `com_ins` after the last line does to the text: that line is filled, if it is empty. -/
theorem Rep.insText_length (H : Rep zt s ps ls qs log) (hk : ls.length ≤ 255) {l : Line}
    (hl : ls.getLast? = some l) {st : List UInt8} {out : List Piece}
    (hr : Xv6Editor.readContent s extra = .ok (c, { s with stdin := st, console := out }))
    (hc : 0 ∉ c) (hlen : c.length < 256) (flag : Bool) :
    ∃ t h ps' nr, insText s (ls.length + 1 : ℕ) extra flag =
        .ok (if l = [] then none else if flag then some s.page0 else none,
          { s with text := t, stdin := st, console := out, heap := h, nullReads := nr }) ∧
      nr = (if flag then s.nullReads ++ [ls.length] else s.nullReads) ∧
      Rep zt { s with text := t, stdin := st, console := out, heap := h, nullReads := nr } ps'
        (if l = [] then ls.insertIdx (ls.length - 1) c else ls ++ [c]) qs log := by
  have h0 : ls.length ≠ 0 := by rintro h; rw [List.length_eq_zero_iff.1 h] at hl; cases hl
  rw [List.getLast?_eq_getElem?] at hl
  have H₁ : Rep zt { s with stdin := st, console := out } ps ls qs log := H.congr rfl rfl rfl rfl
  have hnull := H₁.copyLine_null hk flag
  generalize hnr : (if flag then s.nullReads ++ [ls.length] else s.nullReads) = nr at hnull
  have H₂ : Rep zt { s with stdin := st, console := out, nullReads := nr }
    ps ls qs log := H.congr rfl rfl rfl rfl
  have hp : ps[ls.length]? = none := List.getElem?_eq_none (by rw [H.length_eq])
  obtain ⟨t, h₁, h₂, hset, hstr, hm₁, H₃⟩ := H₂.alloc_memset (by omega)
  by_cases hl0 : l = []
  · -- the content goes into the empty last line, and a new empty line follows
    subst hl0
    obtain ⟨h₃, hcpy, H₄⟩ := H₃.strcpySlot (i := ls.length - 1)
      (by rw [List.length_append, List.length_singleton]; omega) hc hlen
      fun _ => by rw [List.getElem?_append_left (by omega), hl]
    rw [concat_nil_set hl] at H₄
    refine ⟨t, h₃, _, nr, ?_, rfl, H₄⟩
    simp only [insText, insBehind, toNat_line_number, hr, hnull, bind, Except.bind,
      H₂.insShift_length hk, H₂.slot_eq (by omega : ls.length < 256), hp, hset, if_neg h0,
      hstr _ _ hl, if_true, hm₁, hcpy]
  · obtain ⟨h₃, hcpy, H₄⟩ := H₃.strcpySlot (i := ls.length) (by simp) hc hlen (by simp)
    rw [List.set_append_right _ _ le_rfl, Nat.sub_self, List.set_cons_zero] at H₄
    rw [if_neg hl0, if_neg hl0]
    refine ⟨t, h₃, _, nr, ?_, rfl, H₄⟩
    simp only [insText, insBehind, Xv6Editor.putLine, toNat_line_number, hr, hnull, bind,
      Except.bind, H₂.insShift_length hk, H₂.slot_eq (by omega : ls.length < 256), hp, hset,
      if_neg h0, hstr _ _ hl, if_neg hl0, hm₁, hcpy]

theorem Rep.comIns_length (disp : Display) (H : Rep zt s ps ls qs log) (hk : ls.length ≤ 255)
    {l : Line} (hl : ls.getLast? = some l) {st : List UInt8} {out : List Piece}
    (hr : Xv6Editor.readContent s extra = .ok (c, { s with stdin := st, console := out }))
    (hc : 0 ∉ c) (hlen : c.length < 256) (flag : Bool) :
    ∃ t nr cs h u ps' qs', Xv6Editor.comIns disp s (ls.length + 1 : ℕ) extra flag =
        autoDisplay disp { s with
          text := t, stdin := st, console := out, changed := true, commandSet := cs, heap := h,
          upperBound := u, nullReads := nr } ∧
      nr = (if flag then s.nullReads ++ [ls.length] else s.nullReads) ∧
      Rep zt { s with
          text := t, stdin := st, console := out, changed := true, commandSet := cs, heap := h,
          upperBound := u, nullReads := nr } ps'
        (if l = [] then ls.insertIdx (ls.length - 1) c else ls ++ [c]) qs'
        (if l = [] then log
          else if flag then Undo.push 20 log (undoRecord "ins-" (ls.length + 1 : ℕ) s.page0)
          else log) := by
  have hg : ¬(((ls.length + 1 : ℕ) : ℤ) ≤ 0 ∨
      ((ls.length + 1 : ℕ) : ℤ) > getLineNumber s.text + 1 + 1) := by
    rw [H.getLineNumber_eq]
    omega
  obtain ⟨t, h, ps', nr, ht, hnr, H₁⟩ := H.insText_length hk hl hr hc hlen flag
  obtain ⟨cs, h', u, qs', hf, H₂⟩ := H₁.finishEdit disp "ins-" (ls.length + 1 : ℕ)
    fun l _ => isRecord_ins hk l
  refine ⟨t, nr, cs, h', u, ps', qs', ?_, hnr, ?_⟩
  · rw [comIns_eq, if_neg hg, ht]
    exact hf
  · by_cases hl0 : l = []
    · rw [if_pos hl0] at H₂ ⊢
      rwa [if_pos hl0] at H₂ ⊢
    · simp only [if_neg hl0, elim_ite_some] at H₂ ⊢
      exact H₂

/-! ### The demo text -/

/-- One round of `com_init_file`: a new block, with the line in it, goes into slot `i`. -/
theorem initShift_round {i : ℕ} {l : Line} (s : State) (hi : i < 256) (hl : 0 ∉ l)
    (hlen : l.length < 256) (init : List Line) :
    ∃ b h, IsLine False b l ∧ b.bytes = strcpy (s.heap.junk s.heap.next).bytes l ∧
      s.malloc.2.heap.store s.malloc.1 b = some h ∧
      initShift i (l :: init) s =
        initShift (i + 1) init { s with text := s.text.set i (some s.malloc.1), heap := h } := by
  obtain ⟨b, hb, hbl⟩ := isLine_strcpy False (b := s.heap.junk s.heap.next) hl hlen False.elim
  obtain ⟨h, hs⟩ := Heap.exists_store (Heap.get_malloc_self (h := s.heap)) b
  refine ⟨b, h, hbl, Block.bytes_of_ofBytes hb, hs, ?_⟩
  have hset : s.malloc.2.setSlot i (some s.malloc.1) =
      .ok { s with text := s.text.set i (some s.malloc.1), heap := s.malloc.2.heap } :=
    setSlot_eq hi _
  have hptr : State.slotPtr
      { s with text := s.text.set i (some s.malloc.1), heap := s.malloc.2.heap } i =
      .ok s.malloc.1 := by
    simp only [State.slotPtr, State.slot, Vector.getElem?_set_self hi, bind, Except.bind]
  have hcpy : State.strcpy
      { s with text := s.text.set i (some s.malloc.1), heap := s.malloc.2.heap } s.malloc.1 l =
      .ok { s with text := s.text.set i (some s.malloc.1), heap := h } :=
    strcpy_ok (Heap.get_malloc_self (h := s.heap)) hb hs
  rw [initShift]
  simp only [hset, bind, Except.bind, State.strcpySlot, hptr, hcpy]

/-- The block takes the place of line `i`, or comes after the last line. -/
theorem Rep.initShift_cons {i : ℕ} {l : Line} (H : Rep False s ps ls qs log)
    (hi : i ≤ ls.length) (hi' : i < 256) (hl : 0 ∉ l) (hlen : l.length < 256) (init : List Line) :
    ∃ t h ps', initShift i (l :: init) s = initShift (i + 1) init { s with text := t, heap := h } ∧
      Rep False { s with text := t, heap := h } ps' (ls.take i ++ l :: ls.drop (i + 1)) qs log := by
  have hps := H.length_eq
  obtain ⟨hp, hq⟩ := H.malloc_notMem
  obtain ⟨b, h, hbl, -, hs, hround⟩ := initShift_round s hi' hl hlen init
  rcases Nat.lt_or_eq_of_le hi with hlt | rfl
  · refine ⟨_, h, ps.set i s.malloc.1, hround, ?_⟩
    have H₁ := H.malloc.store_other hp hq hs
    have hset := List.set_eq_take_append_cons_drop (l := ls) (i := i) (a := l)
    rw [if_pos hlt] at hset
    rw [← hset]
    exact
      { text_eq := by
          change (s.text.set i (some s.malloc.1)).toList = _
          rw [Vector.toList_set, H.text_eq, slots_set_lt (by omega)]
        length_ps := by rw [List.length_set]; exact H.length_ps
        lines_holds := H₁.lines_holds.set (Heap.get_store_self hs) hbl i
        commands_eq := H₁.commands_eq
        length_qs := H₁.length_qs
        upperBound_eq := H₁.upperBound_eq
        log_holds := H₁.log_holds
        nodup := by
          rw [← List.set_append_left _ _ (by omega)]
          exact H.nodup.set (by rw [List.mem_append]; exact fun h => h.elim hp hq) }
  · refine ⟨_, h, ps ++ [s.malloc.1], hround, ?_⟩
    rw [List.take_length, List.drop_of_length_le (by omega)]
    exact H.concat hi' (Vector.toList_set hi') hs hbl

theorem Rep.initShift {i : ℕ} (init : List Line) (H : Rep False s ps ls qs log)
    (hi : i ≤ ls.length) (hi' : i + init.length ≤ 256)
    (hinit : ∀ l ∈ init, 0 ∉ l ∧ l.length < 256) :
    ∃ t h ps', initShift i init s = .ok { s with text := t, heap := h } ∧
      Rep False { s with text := t, heap := h } ps'
        (ls.take i ++ init ++ ls.drop (i + init.length)) qs log := by
  induction init generalizing i s ls ps with
  | nil => exact ⟨s.text, s.heap, ps, rfl, by simpa using H⟩
  | cons l init ih =>
    rw [List.length_cons] at hi'
    obtain ⟨hl, hlen⟩ := hinit l (by simp)
    obtain ⟨t, h, ps', hb, H₁⟩ := H.initShift_cons hi (by omega) hl hlen init
    obtain ⟨t', h', ps'', hr, H₂⟩ := ih H₁ (i := i + 1) (by simp; omega) (by omega)
      fun l hl => hinit l (by simp [hl])
    refine ⟨t', h', ps'', by rw [hb, hr], ?_⟩
    have hA : (ls.take i).length = i := List.length_take_of_le hi
    have htake : (ls.take i ++ l :: ls.drop (i + 1)).take (i + 1) = ls.take i ++ [l] := by
      rw [List.take_append, hA, Nat.add_sub_cancel_left, List.take_of_length_le (by omega)]
      rfl
    have hdrop : (ls.take i ++ l :: ls.drop (i + 1)).drop (i + 1 + init.length) =
        ls.drop (i + (init.length + 1)) := by
      rw [List.drop_append, hA, List.drop_of_length_le (by omega), List.nil_append,
        show i + 1 + init.length - i = init.length + 1 by omega, List.drop_succ_cons,
        List.drop_drop]
      congr 1
      omega
    rw [htake, hdrop] at H₂
    simpa using H₂

end Xv6Editor
