import Xv6Editor.Input.Numerals
import Xv6Editor.Runs.Full
import Xv6Editor.Runs.Undo

/-!
# When `rb` undoes the command before it

* `rb_mod_iff` : after `mod`, exactly if the old line was not empty and fitted into the record.
* `rb_ins_iff` : after `ins`, unless the content went into an empty last line.
* `rb_unrecorded_iff` : `del` and `init` are not recorded, so that `rb` undoes an older command.
-/

namespace Xv6Editor

variable {disp : Display} {s s₁ : State} {d d₁ d₂ : Doc} {c : Command} {n : ℤ} {m : ℕ}
  {extra r : Line} {ls : List Line}

/-! ### Two commands in a row -/

theorem Reachable.abs (h : Reachable disp s) (hk : s.lines.length ≤ 255) :
    ∃ d, Abs False s d ∧ d.Wf ∧ d.lines.length ≤ 255 := by
  obtain ⟨s₀, R⟩ := h.run hk
  obtain ⟨d, A, W, hd, -⟩ := R.abs
  exact ⟨d, A, W, hd⟩

theorem Abs.of_exec (A : Abs False s d) (W : d.Wf) (hk : d.lines.length ≤ 255) (hc : c.Fits)
    (h : Xv6Editor.exec disp c s = .ok s₁) :
    ∃ d₁, d.exec c = some d₁ ∧ Abs False s₁ d₁ ∧ d₁.Wf := by
  obtain ⟨d₁, hd, A₁⟩ := (A.exec disp W.lines_ne hk hc fun _ => W.newest).exists_doc h
  exact ⟨d₁, hd, A₁.mono False.elim, W.effect hk (Doc.exec_effect hd)⟩

/-- What `rb` does to memory is what it does to the document. -/
theorem Abs.exists_rb_iff (A : Abs False s d) (W : d.Wf) (hk : d.lines.length ≤ 255)
    {p : State → Prop} {q : Doc → Prop} (hpq : ∀ s d, Abs False s d → (p s ↔ q d)) :
    (∃ s₂, Xv6Editor.exec noDisplay .rb s = .ok s₂ ∧ p s₂) ↔ ∃ d₂, d.rollback = some d₂ ∧ q d₂ := by
  have hR : Reaches noDisplay False d.rollback (Xv6Editor.exec noDisplay .rb s) :=
    A.comRollback hk W.newest
  cases hd : d.rollback with
  | none =>
    rw [hd] at hR
    obtain ⟨e, he, -⟩ := hR
    simp [he]
  | some d₂ =>
    rw [hd] at hR
    obtain ⟨s₂, hs, A₂⟩ := hR.exists_ok
    simp [hs, hpq s₂ d₂ A₂]

theorem Doc.stdin_getLine {q : Line × Doc} (h : d.getLine = some q) : q.2.stdin ≠ d.stdin := by
  unfold Doc.getLine at h
  split_ifs at h with hg
  cases h
  intro heq
  have happ := congrArg List.length (gets_append d.stdin)
  rw [show (gets d.stdin).2 = d.stdin from heq, List.length_append] at happ
  have hnil : (gets d.stdin).1 = [] := List.eq_nil_of_length_eq_zero (by omega)
  exact hg (by rw [hnil]; rfl)

/-! ### Undo of `mod` -/

/-- The longest line for which the record of a `mod` of line `n` has room. -/
def recordRoom (n : ℤ) : ℕ := if n < 10 then 249 else if n < 100 then 248 else 247

theorem length_number2string_eq (n : ℕ) (h : n < 257) :
    (number2string n).length = if n < 10 then 1 else if n < 100 then 2 else 3 := by
  -- one digit is split off until one is left
  have step : ∀ k < 257, (number2string (k : ℕ)).length =
      if k < 10 then 1 else (number2string (k / 10 : ℕ)).length + 1 := by
    intro k hk
    rw [number2string_concat (by omega), apply_ite List.length, List.length_append]
    rfl
  rw [step n h, step (n / 10) (by omega), step (n / 10 / 10) (by omega)]
  split_ifs <;> omega

theorem recordContent_eq {l : Line} (h1 : 1 ≤ m) (hm : m ≤ 256) (h0 : 0 ∉ l) :
    recordContent m l = if l.length ≤ recordRoom m then l else [] := by
  have hlen := length_number2string_eq m (by omega)
  rw [recordContent, cstr_eq_self h0, hlen, recordRoom]
  congr 1
  split_ifs <;> first | omega | (apply propext; omega)

theorem Doc.rollback_replace_iff {st : List UInt8} {c old : Line} (hm : d.lines[m]? = some old)
    (hm' : m ≤ 255) (h0 : 0 ∉ old) :
    (∃ d₂, ({ d with stdin := st }.replace m c true).rollback = some d₂ ∧
      d₂.lines = d.lines ∧ d₂.stdin = st) ↔ old ≠ [] ∧ old.length ≤ recordRoom (m + 1 : ℕ) := by
  have hlt : m < d.lines.length := (List.getElem?_eq_some_iff.1 hm).1
  have hlast : ({ d with stdin := st }.replace m c true).log.getLast? =
      some (undoRecord "mod-" (m + 1 : ℕ) old) := by
    simp only [Doc.replace, if_true, hm, Option.getD_some]
    exact Undo.getLast?_push (by decide) _ _
  have hdec := decode_undoRecord_mod (n := m + 1) (by omega) old
  rw [recordContent_eq (by omega) (by omega) h0] at hdec
  simp only [Doc.rollback, hlast, hdec]
  rw [Doc.mod, if_neg (by simp only [Doc.replace, List.length_set]; omega), Nat.cast_add_one,
    add_sub_cancel_right, Int.toNat_natCast]
  by_cases hfit : old ≠ [] ∧ old.length ≤ recordRoom (m + 1 : ℕ)
  · -- the record holds the old line
    refine iff_of_true ?_ hfit
    rw [Nat.cast_add_one] at hfit
    rw [if_pos hfit.2, Doc.readContent, if_neg hfit.1]
    refine ⟨_, rfl, ?_, rfl⟩
    simp only [Doc.replace, List.set_set]
    obtain ⟨hlt, rfl⟩ := List.getElem?_eq_some_iff.1 hm
    exact List.set_getElem_self hlt
  · -- the record holds nothing, and the user is asked
    refine iff_of_false ?_ hfit
    rintro ⟨d₂, hd, -, hst⟩
    rw [Nat.cast_add_one] at hfit
    have hnil : (if old.length ≤ recordRoom (m + 1) then old else []) = [] := by
      split_ifs with h
      · by_contra hne
        exact hfit ⟨hne, h⟩
      · rfl
    rw [hnil, Doc.readContent, if_pos rfl] at hd
    obtain ⟨q, hq, rfl⟩ := Option.map_eq_some_iff.1 hd
    exact Doc.stdin_getLine hq hst

/-- A `mod` of line `n` is undone by the `rb` after it, without reading input, if and only if the
old line was not empty and had at most 249, 248 or 247 bytes, depending on the digits of `n`. -/
theorem rb_mod_iff (h : Reachable disp s) (hk : s.lines.length ≤ 255)
    (hn : 1 ≤ n ∧ n ≤ s.lines.length) (hc : (Command.mod n extra).Fits)
    (h₁ : exec disp (.mod n extra) s = .ok s₁) :
    (∃ s₂, exec noDisplay .rb s₁ = .ok s₂ ∧ s₂.lines = s.lines ∧ s₂.stdin = s₁.stdin) ↔
      ∀ old, s.lines[(n - 1).toNat]? = some old → old ≠ [] ∧ old.length ≤ recordRoom n := by
  obtain ⟨d, A, W, hd⟩ := h.abs hk
  obtain ⟨d₁, hd₁, A₁, W₁⟩ := A.of_exec W hd hc h₁
  rw [A.lines_eq] at hn ⊢
  obtain ⟨m, rfl⟩ : ∃ m : ℕ, n = (m + 1 : ℕ) := ⟨(n - 1).toNat, by omega⟩
  have hm : m < d.lines.length := by omega
  have hget := List.getElem?_eq_getElem hm
  have hm' : ((m + 1 : ℕ) - 1 : ℤ).toNat = m := by omega
  -- the content does not matter
  obtain ⟨st, c, rfl⟩ : ∃ st c, d₁ = { d with stdin := st }.replace m c true := by
    rw [Doc.exec, Doc.mod, if_neg (by omega)] at hd₁
    obtain ⟨q, hq, rfl⟩ := Option.map_eq_some_iff.1 hd₁
    obtain ⟨st, -, hq, -⟩ := Doc.readContent_cases hq
    exact ⟨st, q.1, by rw [hq, hm']⟩
  have h0 : 0 ∉ d.lines[m] := by
    obtain ⟨ps, qs, H⟩ := A.rep
    exact (H.line_spec (List.getElem_mem hm)).1
  rw [A₁.exists_rb_iff W₁ (by simpa [Doc.replace] using hd)
    (q := fun d₂ => d₂.lines = d.lines ∧ d₂.stdin = st) fun s₂ d₂ A₂ => by
      rw [A₂.lines_eq, A₂.stdin_eq, A₁.stdin_eq]
      rfl,
    Doc.rollback_replace_iff hget (by omega) h0, hm', hget]
  simp

theorem rb_mod_iff_session : ∃ s s₁ s₂, Reachable noDisplay s ∧
    exec noDisplay (.mod 1 (bytesOf "b")) s = .ok s₁ ∧
    exec noDisplay .rb s₁ = .ok s₂ ∧ s₂.lines = s.lines ∧ s₂.stdin = s₁.stdin := by
  obtain ⟨s, hm, A⟩ := main_shown noDisplay (.session (some (bytesOf "a")) []) [bytesOf "a"] rfl
    (shows_noDisplay _)
  have hl : s.lines = [bytesOf "a"] := A.lines_eq
  have hr : Reachable noDisplay s := .of_main (by rintro _ ⟨⟩; decide) hm
  obtain ⟨s₁, hs₁, -⟩ := A.exec_shown (c := .mod 1 (bytesOf "b")) (Boot.doc_wf _ _) (by decide)
    (by decide) rfl (shows_noDisplay _)
  obtain ⟨s₂, hs₂, hlines, hst⟩ := (rb_mod_iff hr (by rw [hl]; decide) (by rw [hl]; decide)
    (by decide) hs₁).2 (by rw [hl]; rintro _ ⟨⟩; decide)
  exact ⟨s, s₁, s₂, hr, hs₁, hs₂, hlines, hst⟩

/-- If the old line was empty, `rb` asks for a new content. -/
theorem rb_mod_empty : ∃ s s₁ s₂, Reachable showTextSyntaxHighlighting s ∧ s.lines = [[]] ∧
    exec showTextSyntaxHighlighting (.mod 1 (bytesOf "x")) s = .ok s₁ ∧
    exec showTextSyntaxHighlighting .rb s₁ = .ok s₂ ∧ s₂.lines = [bytesOf "y"] ∧
    s₁.stdin = bytesOf "y\n" ∧ s₂.stdin = [] := by
  obtain ⟨s, hm, A⟩ := main_shown showTextSyntaxHighlighting (.session none (bytesOf "y\n")) [] rfl
    (shows_highlighting (by decide) (by decide))
  obtain ⟨s₁, hs₁, A₁, W₁⟩ := A.exec_shown (c := .mod 1 (bytesOf "x")) (Boot.doc_wf _ _)
    (by decide) (by decide) rfl (shows_highlighting (by decide) (by decide))
  obtain ⟨s₂, hs₂, A₂, -⟩ := A₁.exec_shown (c := .rb) W₁ (by decide) (by decide) rfl
    (shows_highlighting (by decide) (by decide))
  exact ⟨s, s₁, s₂, .of_main (by rintro _ ⟨⟩) hm, A.lines_eq, hs₁, hs₂, A₂.lines_eq, A₁.stdin_eq,
    A₂.stdin_eq⟩

/-! ### Undo of `ins` -/

/-- What the newest undo record says. -/
def newest (log : List Line) : Undoing := log.getLast?.elim .nothing decode

/-- The content of an `ins` or `mod`: what is on the command line, or a line of the input. -/
def content (stdin : List UInt8) (extra : Line) : Line :=
  if extra = [] then (cstr (gets stdin).1).dropLast else extra

theorem Doc.readContent_eq {q : Line × Doc} (h : d.readContent extra = some q) :
    q.1 = content d.stdin extra ∧ ∃ st, q.2 = { d with stdin := st } := by
  unfold Doc.readContent Doc.getLine at h
  unfold content
  split_ifs at h ⊢ <;> cases h <;> exact ⟨rfl, _, rfl⟩

theorem IsRecord.decode (h : IsRecord r) :
    ∃ m ≤ 255, decode r = .remove (m + 1 : ℕ) ∨ ∃ c, decode r = .rewrite (m + 1 : ℕ) c := by
  obtain ⟨op, hop, n, c, h1, hn, rfl⟩ := h
  obtain ⟨m, rfl⟩ : ∃ m, n = m + 1 := ⟨n - 1, by omega⟩
  refine ⟨m, by omega, ?_⟩
  obtain rfl | rfl : op = "ins-" ∨ op = "mod-" := by simpa using hop
  · exact .inl (decode_undoRecord_ins hn c)
  · exact .inr ⟨_, decode_undoRecord_mod hn c⟩

theorem Mem.upperBound_eq {zt : Prop} (M : Mem zt s d) : s.upperBound = d.log.length - 1 := by
  obtain ⟨ps, qs, H⟩ := M.rep
  rw [H.upperBound_eq, H.length_log]

theorem Doc.rollback_insert {st : List UInt8} {c : Line} (hm : m ≤ d.lines.length)
    (h0 : d.lines ≠ []) (hm' : m ≤ 255) (hu : ¬d.Unrecorded m) :
    ({ d with stdin := st }.insert m c).rollback = some { d with
      stdin := st, changed := true, log := d.log.drop (d.log.length + 1 - 20) } := by
  have hu' : ¬({ d with stdin := st } : Doc).Unrecorded m := hu
  have hlen := Doc.length_insLines hm c
  have hdec := decode_undoRecord_ins (n := m + 1) (by omega) (d.lines[m]?.getD d.page0)
  simp only [Doc.rollback, Doc.insert, if_neg hu']
  rw [Undo.getLast?_push (by decide), Undo.dropLast_push (by decide)]
  simp only [hdec, Doc.del]
  rw [if_neg (by omega), Nat.cast_add_one, add_sub_cancel_right, Int.toNat_natCast,
    delLines_insLines hm h0 (if_neg hu)]

theorem Doc.rollback_remove (hr : d.log.getLast? = some r) (hdec : decode r = .remove (m + 1 : ℕ)) :
    ∃ b, d.rollback = some { d with
      lines := if m < d.lines.length then delLines d.lines m else d.lines
      log := d.log.dropLast
      changed := b } := by
  simp only [Doc.rollback, hr, hdec, Doc.del]
  split_ifs with h h'
  · omega
  · exact ⟨_, rfl⟩
  · refine ⟨true, ?_⟩
    rw [Nat.cast_add_one, add_sub_cancel_right, Int.toNat_natCast]
  · omega

theorem Doc.rollback_rewrite {c : Line} (hr : d.log.getLast? = some r)
    (hdec : decode r = .rewrite (m + 1 : ℕ) c) :
    d.rollback = if m < d.lines.length then
        (Doc.readContent { d with log := d.log.dropLast } c).map fun q => q.2.replace m q.1 false
      else some { d with log := d.log.dropLast } := by
  simp only [Doc.rollback, hr, hdec, Doc.mod]
  rw [Nat.cast_add_one, add_sub_cancel_right, Int.toNat_natCast]
  by_cases hm : m < d.lines.length
  · rw [if_pos hm, if_neg (by omega)]
  · rw [if_neg hm, if_pos (by omega)]

theorem insLines_unrecorded {c : Line} (hu : d.Unrecorded m) :
    insLines d.lines m c = d.lines.dropLast ++ [c, []] := by
  obtain ⟨rfl, hlast⟩ := hu
  obtain ⟨init, hinit⟩ := List.getLast?_eq_some_iff.1 hlast
  rw [insLines_length, if_pos hlast, hinit, List.dropLast_concat, List.length_append,
    List.length_singleton, Nat.add_sub_cancel]
  clear hinit hlast
  induction init with
  | nil => rfl
  | cons l init ih => rw [List.cons_append, List.length_cons, List.insertIdx_succ_cons, ih]; rfl

/-- `rb` after an insertion that was not recorded undoes an older command. -/
theorem Doc.rollback_unrecorded_iff {st : List UInt8} {c : Line} (W : d.Wf)
    (hu : d.Unrecorded m) :
    (∃ d₂, ({ d with stdin := st }.insert m c).rollback = some d₂ ∧
      d₂.lines = d.lines ∧ (d.log.length < 20 → d₂.log.length = d.log.length)) ↔
    20 ≤ d.log.length ∧ ∃ n, newest d.log = .remove n ∧
      (d.lines.dropLast ++ [c, []]).eraseIdx (n - 1).toNat = d.lines := by
  have hlog : ({ d with stdin := st }.insert m c).log = d.log := if_pos hu
  have hlines : ({ d with stdin := st }.insert m c).lines = d.lines.dropLast ++ [c, []] :=
    insLines_unrecorded hu
  have hlen : (d.lines.dropLast ++ [c, []]).length = d.lines.length + 1 := by
    have := List.length_pos_of_ne_nil W.lines_ne
    simp only [List.length_append, List.length_dropLast, List.length_cons, List.length_nil]
    omega
  generalize { d with stdin := st }.insert m c = d₁ at hlog hlines ⊢
  rw [← hlines] at hlen ⊢
  have hne : d₁.lines ≠ d.lines := fun h => by rw [h] at hlen; omega
  rw [newest, ← hlog]
  cases hr : d₁.log.getLast? with
  | none =>
    have hnil : d₁.log = [] := List.getLast?_eq_none_iff.1 hr
    simp [Doc.rollback, hne, hnil]
  | some r =>
    have hpos : d₁.log.length ≠ 0 := fun h => by
      rw [List.eq_nil_of_length_eq_zero h] at hr
      cases hr
    obtain ⟨j, -, hdec | ⟨x, hdec⟩⟩ := (W.records r (hlog ▸ List.mem_of_getLast? hr)).decode
    · obtain ⟨b, hb⟩ := Doc.rollback_remove hr hdec
      have hj : ((j + 1 : ℕ) - 1 : ℤ).toNat = j := by omega
      have hdel : (if j < d₁.lines.length then delLines d₁.lines j else d₁.lines) =
          d₁.lines.eraseIdx j := by
        have := List.length_pos_of_ne_nil W.lines_ne
        split_ifs with h
        · rw [delLines, if_neg (by omega)]
        · rw [List.eraseIdx_of_length_le (by omega)]
      rw [hb, hdel]
      simp only [Option.some.injEq, exists_eq_left', Option.elim_some, hdec, Undoing.remove.injEq,
        hj, List.length_dropLast]
      rw [and_comm]
      refine and_congr_left fun _ => ?_
      omega
    · -- a replacement does not take a line away
      refine iff_of_false ?_ (by simp [hdec])
      rintro ⟨d₂, hd, hl, -⟩
      rw [Doc.rollback_rewrite hr hdec] at hd
      split_ifs at hd
      · obtain ⟨q, hq, rfl⟩ := Option.map_eq_some_iff.1 hd
        obtain ⟨-, st, hq⟩ := Doc.readContent_eq hq
        have := congrArg List.length hl
        simp only [hq, Doc.replace, List.length_set] at this
        omega
      · cases hd
        exact hne hl

/-- An `ins` is undone by the `rb` after it, and takes its record back, unless it puts the content
into an empty last line, when it records nothing.  Then `rb` undoes an older command, which gives
the same text only if the log is full and its newest record deletes the right line. -/
theorem rb_ins_iff (h : Reachable disp s) (hk : s.lines.length ≤ 254)
    (hn : 1 ≤ n ∧ n ≤ s.lines.length + 1) (hc : (Command.ins n extra).Fits)
    (h₁ : exec disp (.ins n extra) s = .ok s₁) :
    (∃ s₂, exec noDisplay .rb s₁ = .ok s₂ ∧ s₂.lines = s.lines ∧
      (s.upperBound < 19 → s₂.upperBound = s.upperBound)) ↔
    ¬(n = s.lines.length + 1 ∧ s.lines.getLast? = some []) ∨
      s.upperBound = 19 ∧ ∃ n', newest s.log = .remove n' ∧
        (s.lines.dropLast ++ [content s.stdin extra, []]).eraseIdx (n' - 1).toNat = s.lines := by
  obtain ⟨d, A, W, hd⟩ := h.abs (by omega)
  obtain ⟨d₁, hd₁, A₁, W₁⟩ := A.of_exec W hd hc h₁
  have hub := A.upperBound_eq
  have hub' := (A.repInv W.lines_ne hd).upperBound_le
  rw [A.lines_eq] at hn hk ⊢
  rw [A.log_eq, A.stdin_eq]
  obtain ⟨m, rfl⟩ : ∃ m : ℕ, n = (m + 1 : ℕ) := ⟨(n - 1).toNat, by omega⟩
  have hm : m ≤ d.lines.length := by omega
  have hm' : ((m + 1 : ℕ) - 1 : ℤ).toNat = m := by omega
  obtain ⟨st, rfl⟩ : ∃ st, d₁ = { d with stdin := st }.insert m (content d.stdin extra) := by
    rw [Doc.exec, Doc.ins, if_neg (by omega)] at hd₁
    obtain ⟨q, hq, rfl⟩ := Option.map_eq_some_iff.1 hd₁
    obtain ⟨hx, st, hq⟩ := Doc.readContent_eq hq
    exact ⟨st, by rw [hq, hx, hm']⟩
  have hlen := Doc.length_insLines hm (content d.stdin extra)
  rw [A₁.exists_rb_iff W₁ (hlen.trans_le (by omega))
    (q := fun d₂ => d₂.lines = d.lines ∧ (d.log.length < 20 → d₂.log.length = d.log.length))
    fun s₂ d₂ A₂ => by
      rw [A₂.lines_eq, A₂.upperBound_eq, hub]
      exact and_congr_right fun _ => by omega]
  have hu : ((m + 1 : ℕ) : ℤ) = d.lines.length + 1 ∧ d.lines.getLast? = some [] ↔
      d.Unrecorded m := and_congr_left fun _ => by omega
  rw [hu]
  by_cases hu : d.Unrecorded m
  · rw [Doc.rollback_unrecorded_iff W hu, or_iff_right (not_not.2 hu)]
    exact and_congr_left fun _ => by omega
  · rw [Doc.rollback_insert hm W.lines_ne (by omega) hu]
    refine iff_of_true ⟨_, rfl, rfl, fun h20 => ?_⟩ (.inl hu)
    rw [List.length_drop]
    omega

theorem rb_ins_iff_session : ∃ s s₁ s₂, Reachable noDisplay s ∧
    exec noDisplay (.ins 2 (bytesOf "b")) s = .ok s₁ ∧
    exec noDisplay .rb s₁ = .ok s₂ ∧ s₂.lines = s.lines ∧
    (s.upperBound < 19 → s₂.upperBound = s.upperBound) := by
  obtain ⟨s, hm, A⟩ := main_shown noDisplay (.session (some (bytesOf "a")) []) [bytesOf "a"] rfl
    (shows_noDisplay _)
  have hl : s.lines = [bytesOf "a"] := A.lines_eq
  have hr : Reachable noDisplay s := .of_main (by rintro _ ⟨⟩; decide) hm
  obtain ⟨s₁, hs₁, -⟩ := A.exec_shown (c := .ins 2 (bytesOf "b")) (Boot.doc_wf _ _) (by decide)
    (by decide) rfl (shows_noDisplay _)
  obtain ⟨s₂, hs₂, hlines, hub⟩ := (rb_ins_iff hr (by rw [hl]; decide) (by rw [hl]; decide)
    (by decide) hs₁).2 (.inl (by rw [hl]; decide))
  exact ⟨s, s₁, s₂, hr, hs₁, hs₂, hlines, hub⟩

/-- The first line of a new file cannot be taken back: `rb` is refused. -/
theorem rb_ins_new_file : ∃ s s₁ s₂, Reachable showTextSyntaxHighlighting s ∧ s.lines = [[]] ∧
    exec showTextSyntaxHighlighting (.ins 2 (bytesOf "a")) s = .ok s₁ ∧
    exec showTextSyntaxHighlighting .rb s₁ = .ok s₂ ∧ s₂.lines = [bytesOf "a", []] := by
  obtain ⟨s, hm, A⟩ := main_shown showTextSyntaxHighlighting (.session none []) [] rfl
    (shows_highlighting (by decide) (by decide))
  obtain ⟨s₁, hs₁, A₁, W₁⟩ := A.exec_shown (c := .ins 2 (bytesOf "a")) (Boot.doc_wf _ _)
    (by decide) (by decide) rfl (shows_highlighting (by decide) (by decide))
  obtain ⟨s₂, hs₂, A₂, -⟩ := A₁.exec_shown (c := .rb) W₁ (by decide) (by decide) rfl
    (shows_highlighting (by decide) (by decide))
  exact ⟨s, s₁, s₂, .of_main (by rintro _ ⟨⟩) hm, A.lines_eq, hs₁, hs₂, A₂.lines_eq⟩

/-! ### After a command that is not recorded -/

/-- The lines that `del` and `init` leave. -/
def leftLines : Command → List Line → List Line
  | .del n, ls => delLines ls (n - 1).toNat
  | .init, ls => initLines ls
  | _, ls => ls

/-- Undoing what the newest record says does no harm to the lines `left` that a command has made of
the lines `before`: there is nothing to undo, the record is for a line past the end, or
* it is that of an `ins`, and one empty line is left or deleting gives the lines from before;
* it is that of a `mod`, and its content, or what the user enters instead of an empty one, is in
  the line already or gives the lines from before. -/
def Harmless (u : Undoing) (stdin : List UInt8) (before left : List Line) : Prop :=
  match u with
  | .nothing => True
  | .remove n => left.length < n ∨ left = [[]] ∨ left.eraseIdx (n - 1).toNat = before
  | .rewrite n x => left.length < n ∨ (x = [] → cstr (gets stdin).1 ≠ []) ∧
      (left[(n - 1).toNat]? = some (content stdin x) ∨
        left.set (n - 1).toNat (content stdin x) = before)

theorem set_eq_self_iff {c : Line} (hm : m < ls.length) : ls.set m c = ls ↔ ls[m]? = some c := by
  constructor
  · intro h
    rw [← h, List.getElem?_set_self hm]
  · intro h
    obtain ⟨hm, rfl⟩ := List.getElem?_eq_some_iff.1 h
    exact List.set_getElem_self hm

theorem Doc.exists_replace_iff (extra : Line) (q : List Line → Prop) :
    (∃ d₂, (d.readContent extra).map (fun p => p.2.replace m p.1 false) = some d₂ ∧ q d₂.lines) ↔
      (extra = [] → cstr (gets d.stdin).1 ≠ []) ∧ q (d.lines.set m (content d.stdin extra)) := by
  by_cases hx : extra = []
  · by_cases hg : cstr (gets d.stdin).1 = []
    · simp [Doc.readContent, Doc.getLine, hx, hg]
    · simp [Doc.readContent, Doc.getLine, Doc.replace, content, hx, hg]
  · simp [Doc.readContent, Doc.replace, content, hx]

theorem Doc.rollback_harmless_iff {before : List Line} (W : d.Wf) (hb : before ≠ [])
    (h1 : d.lines.length ≤ 1 → before = [[]] → d.lines = [[]]) :
    (∃ d₂, d.rollback = some d₂ ∧ (d₂.lines = before ∨ d₂.lines = d.lines)) ↔
      Harmless (newest d.log) d.stdin before d.lines := by
  cases hr : d.log.getLast? with
  | none =>
    have hnil : d.log = [] := List.getLast?_eq_none_iff.1 hr
    simp [Doc.rollback, hnil, newest, Harmless]
  | some r =>
    obtain ⟨j, -, hdec | ⟨x, hdec⟩⟩ := (W.newest r hr).decode
    · obtain ⟨b, hd⟩ := Doc.rollback_remove hr hdec
      have hj : ((j + 1 : ℕ) - 1 : ℤ).toNat = j := by omega
      simp only [hd, Option.some.injEq, exists_eq_left', newest, hr, Option.elim_some, hdec,
        Harmless, hj]
      by_cases hlt : j < d.lines.length
      · rw [if_pos hlt, or_iff_right (by omega : ¬(d.lines.length : ℤ) < (j + 1 : ℕ)), delLines]
        have herase := List.length_eraseIdx_of_lt hlt
        split_ifs with hk
        · -- the only line was emptied
          refine ⟨fun h => .inl (h.elim (fun h => h1 hk h.symm) Eq.symm), fun h => ?_⟩
          refine h.elim (fun h => .inr h.symm) fun h => absurd ?_ hb
          exact h ▸ List.eq_nil_of_length_eq_zero (by omega)
        · refine ⟨fun h => .inr (h.resolve_right fun h => ?_),
            fun h => .inl (h.resolve_left fun h => ?_)⟩
          · rw [h] at herase
            omega
          · simp [h] at hk
      · rw [if_neg hlt]
        exact iff_of_true (.inr rfl) (.inl (by omega))
    · have hj : ((j + 1 : ℕ) - 1 : ℤ).toNat = j := by omega
      rw [Doc.rollback_rewrite hr hdec]
      simp only [newest, hr, Option.elim_some, hdec, Harmless, hj]
      by_cases hlt : j < d.lines.length
      · rw [if_pos hlt, or_iff_right (by omega : ¬(d.lines.length : ℤ) < (j + 1 : ℕ)),
          ← set_eq_self_iff hlt, or_comm (a := d.lines.set j _ = d.lines)]
        exact Doc.exists_replace_iff (d := { d with log := d.log.dropLast }) x
          fun ls => ls = before ∨ ls = d.lines
      · rw [if_neg hlt]
        exact iff_of_true ⟨_, rfl, .inr rfl⟩ (.inl (by omega))

/-- `del` and `init` record nothing.  The `rb` after one of them undoes an older command: it leaves
the text as it is or as it was before only if that does no harm. -/
theorem rb_unrecorded_iff (h : Reachable disp s) (hk : s.lines.length ≤ 254)
    (hc : c = .init ∨ ∃ n, c = .del n ∧ 1 ≤ n ∧ n ≤ s.lines.length)
    (h₁ : exec disp c s = .ok s₁) :
    (∃ s₂, exec noDisplay .rb s₁ = .ok s₂ ∧ (s₂.lines = s.lines ∨ s₂.lines = s₁.lines)) ↔
      Harmless (newest s.log) s.stdin s.lines (leftLines c s.lines) := by
  obtain ⟨d, A, W, hd⟩ := h.abs (by omega)
  have hfit : c.Fits := by
    obtain rfl | ⟨n, rfl, -⟩ := hc <;> exact ⟨List.not_mem_nil, by simp [Command.extra]⟩
  obtain ⟨d₁, hd₁, A₁, W₁⟩ := A.of_exec W hd hfit h₁
  rw [A.lines_eq] at hc ⊢
  rw [A.log_eq, A.stdin_eq]
  have hk₁ : d₁.lines.length ≤ 255 := (Doc.exec_effect hd₁).length_le hd fun n extra hi => by
    subst hi
    obtain h | ⟨n, h, -⟩ := hc <;> cases h
  -- only the lines change, and one line stays one line
  obtain ⟨hlog, hst, hl, h1⟩ : d₁.log = d.log ∧ d₁.stdin = d.stdin ∧
      d₁.lines = leftLines c d.lines ∧
      (d₁.lines.length ≤ 1 → d.lines = [[]] → d₁.lines = [[]]) := by
    obtain rfl | ⟨n, rfl, hn, hn'⟩ := hc
    · cases hd₁
      refine ⟨rfl, rfl, rfl, fun h => ?_⟩
      simp only [Doc.init, initLines, List.length_append, length_initText] at h
      omega
    · rw [Doc.exec, Doc.del, if_neg (by omega)] at hd₁
      cases hd₁
      refine ⟨rfl, rfl, rfl, fun _ h => ?_⟩
      simp [delLines, h]
  rw [A₁.exists_rb_iff W₁ hk₁ (q := fun d₂ => d₂.lines = d.lines ∨ d₂.lines = d₁.lines)
    fun s₂ d₂ A₂ => by rw [A₂.lines_eq, A₁.lines_eq],
    Doc.rollback_harmless_iff W₁ W.lines_ne h1, hlog, hst, hl]

/-- The only line is replaced by itself and then deleted; `rb` undoes the `mod`, which brings the
line back. -/
theorem rb_unrecorded_iff_session : ∃ s s₁ s₂, Reachable noDisplay s ∧
    s.log = [bytesOf "mod-1 a"] ∧ exec noDisplay (.del 1) s = .ok s₁ ∧
    exec noDisplay .rb s₁ = .ok s₂ ∧ (s₂.lines = s.lines ∨ s₂.lines = s₁.lines) := by
  obtain ⟨s₀, hm, A₀⟩ := main_shown noDisplay
    (.session (some (bytesOf "a")) (bytesOf "mod-1 a\n")) [bytesOf "a"] rfl (shows_noDisplay _)
  obtain ⟨s, hs, A, W⟩ := A₀.step_shown (Boot.doc_wf _ _) (by decide) rfl (shows_noDisplay _)
  have hl : s.lines = [bytesOf "a"] := A.lines_eq
  have hlog : s.log = [bytesOf "mod-1 a"] := A.log_eq
  have hr : Reachable noDisplay s := ⟨s₀, ⟨_, _, by rintro _ ⟨⟩; decide, hm⟩, .single hs⟩
  obtain ⟨s₁, hs₁, -⟩ := A.exec_shown (c := .del 1) W (by decide) (by decide) rfl
    (shows_noDisplay _)
  have hnewest : newest [bytesOf "mod-1 a"] = .rewrite 1 (bytesOf "a") := by decide
  have hcontent : content s.stdin (bytesOf "a") = bytesOf "a" := if_neg (by decide)
  obtain ⟨s₂, hs₂, hlines⟩ := (rb_unrecorded_iff hr (by rw [hl]; decide)
    (.inr ⟨1, rfl, by rw [hl]; decide⟩) hs₁).2 (by
      rw [hlog, hl, hnewest]
      exact .inr ⟨fun h => absurd h (by decide), .inr (by rw [hcontent]; decide)⟩)
  exact ⟨s, s₁, s₂, hr, hlog, hs₁, hs₂, hlines⟩

/-- After `ins-1` and `del-1` the next `rb` deletes the first line of the file. -/
theorem rb_del_first_line : ∃ s s₁ s₂, Reachable showTextSyntaxHighlighting s ∧
    s.lines = [bytesOf "x", bytesOf "a", bytesOf "b"] ∧
    exec showTextSyntaxHighlighting (.del 1) s = .ok s₁ ∧
    s₁.lines = [bytesOf "a", bytesOf "b"] ∧
    exec showTextSyntaxHighlighting .rb s₁ = .ok s₂ ∧ s₂.lines = [bytesOf "b"] := by
  obtain ⟨s₀, hm, A₀⟩ := main_shown showTextSyntaxHighlighting
    (.session (some (bytesOf "a\nb")) (bytesOf "ins-1 x\n")) [bytesOf "a\nb"] rfl
    (shows_highlighting (by decide) (by decide))
  obtain ⟨s, hs, A, W⟩ := A₀.step_shown (Boot.doc_wf _ _) (by decide) rfl
    (shows_highlighting (by decide) (by decide))
  obtain ⟨s₁, hs₁, A₁, W₁⟩ := A.exec_shown (c := .del 1) W (by decide) (by decide) rfl
    (shows_highlighting (by decide) (by decide))
  obtain ⟨s₂, hs₂, A₂, -⟩ := A₁.exec_shown (c := .rb) W₁ (by decide) (by decide) rfl
    (shows_highlighting (by decide) (by decide))
  have hR : Reachable showTextSyntaxHighlighting s :=
    ⟨s₀, ⟨_, _, by rintro _ ⟨⟩; decide, hm⟩, .single hs⟩
  exact ⟨s, s₁, s₂, hR, A.lines_eq, hs₁, A₁.lines_eq, hs₂, A₂.lines_eq⟩

end Xv6Editor
