import Mathlib.Data.List.InsertIdx
import Xv6Editor.Doc.Load

/-!
# Invariants of documents

`Doc.Effect` lists what one command can do to a document, and `Doc.step_effect` says that a round
of the command loop does one of these things; the invariants of runs follow from it.

* `Doc.Wf` : there is a line, and the undo log holds records of `com_ins` and `com_mod`.
* `Doc.Fits` : the condition under which a text of at most 255 lines stays one.
* `Doc.Plain` : no line has a newline, if the input has no NUL.
-/

namespace Xv6Editor

/-! ### What a command can do -/

variable {d d' : Doc} {cmd : Command} {n : ℤ} {m : ℕ} {c extra r l : Line} {flag : Bool}
  {ls : List Line}

namespace Doc

/-- Where a content comes from: the command line, the next line of the input, or an undo record. -/
def Source (d : Doc) (cmd : Command) (c : Line) : Prop :=
  c = cmd.extra ∨ c = (cstr (gets d.stdin).1).dropLast ∨ ∃ r ∈ d.log, ∃ n, decode r = .rewrite n c

/-- What the command `cmd` can make of the document `d`. -/
inductive Effect (d : Doc) (cmd : Command) : Doc → Prop
  /-- The lines stay. -/
  | quiet {st : List UInt8} {log : List Line} (hs : st <:+ d.stdin) (hl : log <+: d.log) :
    Effect d cmd { d with stdin := st, log := log }
  /-- `ins`. -/
  | insert {st : List UInt8} {m : ℕ} {c extra : Line} (hi : cmd = .ins (m + 1 : ℕ) extra)
    (hs : st <:+ d.stdin) (hm : m ≤ d.lines.length) (hc : d.Source cmd c) :
    Effect d cmd ({ d with stdin := st }.insert m c)
  /-- `mod`. -/
  | replace {st : List UInt8} {m : ℕ} {c : Line} (hs : st <:+ d.stdin) (hm : m < d.lines.length)
    (hc : d.Source cmd c) : Effect d cmd ({ d with stdin := st }.replace m c true)
  /-- `rb` of a `mod`. -/
  | rewrite {st : List UInt8} {log : List Line} {m : ℕ} {c : Line} (hs : st <:+ d.stdin)
    (hl : log <+: d.log) (hm : m < d.lines.length) (hc : d.Source cmd c) :
    Effect d cmd ({ d with stdin := st, log := log }.replace m c false)
  /-- `del`, or `rb` of an `ins`. -/
  | delete {log : List Line} {m : ℕ} (hl : log <+: d.log) (hm : m < d.lines.length) :
    Effect d cmd { d with log := log, lines := delLines d.lines m, changed := true }
  /-- `init`. -/
  | init : Effect d cmd d.init
  /-- `save`. -/
  | save {k : Disk} (h : cmd = .save) (hk : d.save = some { d with disk := k, changed := false }) :
    Effect d cmd { d with disk := k, changed := false }

theorem Effect.refl (d : Doc) (cmd : Command) : d.Effect cmd d :=
  .quiet (List.suffix_refl _) (List.prefix_refl _)

/-- Reading a content changes only what is left to read. -/
theorem readContent_cases {p : Line × Doc} (h : d.readContent extra = some p) :
    ∃ st, st <:+ d.stdin ∧ p.2 = { d with stdin := st } ∧
      (p.1 = extra ∨ p.1 = (cstr (gets d.stdin).1).dropLast) := by
  unfold readContent getLine at h
  split_ifs at h
  · cases h
    exact ⟨_, gets_suffix _, rfl, .inr rfl⟩
  · cases h
    exact ⟨_, List.suffix_refl _, rfl, .inl rfl⟩

theorem ins_effect (h : d.ins n extra = some d') : d.Effect (.ins n extra) d' := by
  unfold ins at h
  split_ifs at h with hn
  · cases h
    exact .refl ..
  · obtain ⟨p, hp, rfl⟩ := Option.map_eq_some_iff.1 h
    obtain ⟨st, hs, hd, hc⟩ := readContent_cases hp
    rw [hd]
    have hi : Command.ins n extra = .ins ((n - 1).toNat + 1 : ℕ) extra := by
      congr 1
      omega
    exact .insert hi hs (by omega) (hc.imp id .inl)

theorem mod_effect (h : d.mod n extra true = some d') : d.Effect (.mod n extra) d' := by
  unfold mod at h
  split_ifs at h with hn
  · cases h
    exact .refl ..
  · obtain ⟨p, hp, rfl⟩ := Option.map_eq_some_iff.1 h
    obtain ⟨st, hs, hd, hc⟩ := readContent_cases hp
    rw [hd]
    exact .replace hs (by omega) (hc.imp id .inl)

theorem rollback_effect (h : d.rollback = some d') : d.Effect .rb d' := by
  have hl : d.log.dropLast <+: d.log := List.dropLast_prefix _
  unfold rollback at h
  cases hlast : d.log.getLast? with
  | none =>
    rw [hlast] at h
    cases h
    exact .refl ..
  | some r =>
    have hr : r ∈ d.log := List.mem_of_getLast? hlast
    rw [hlast] at h
    cases hdec : decode r with
    | remove n =>
      simp only [hdec] at h
      cases h
      unfold del
      split_ifs with hn
      · exact .quiet (List.suffix_refl _) hl
      · exact .delete hl (by simp only at hn; omega)
    | rewrite n c =>
      simp only [hdec] at h
      unfold mod at h
      split_ifs at h with hn
      · cases h
        exact .quiet (List.suffix_refl _) hl
      · obtain ⟨p, hp, rfl⟩ := Option.map_eq_some_iff.1 h
        obtain ⟨st, hs, hd, hc⟩ := readContent_cases hp
        rw [hd]
        refine .rewrite hs hl (by simp only at hn; omega) ?_
        exact hc.elim (fun h => .inr (.inr ⟨r, hr, n, h ▸ hdec⟩)) fun h => .inr (.inl h)
    | nothing =>
      simp only [hdec] at h
      cases h
      exact .quiet (List.suffix_refl _) hl

theorem exec_effect (h : d.exec cmd = some d') : d.Effect cmd d' := by
  cases cmd with
  | ins n extra => exact ins_effect h
  | mod n extra => exact mod_effect h
  | del n =>
    cases h
    unfold del
    split_ifs with hn
    · exact .refl ..
    · exact .delete (List.prefix_refl _) (by omega)
  | rb => exact rollback_effect h
  | init =>
    cases h
    exact .init
  | save =>
    have hk := h
    unfold exec save at h
    split_ifs at h
    cases h
    exact .save rfl hk
  | exit => cases h
  | «show» | hide | help | demo | disp | normaldisp | invalid =>
    cases h
    exact .refl ..

/-- A round of the command loop reads a command and does one of the things of `Effect`. -/
theorem step_effect (h : d.step = some d') :
    Effect { d with stdin := (gets d.stdin).2 } d.command d' ∧ (gets d.stdin).1 ≠ [] := by
  unfold step at h
  split_ifs at h with hg
  refine ⟨exec_effect h, fun h0 => hg ?_⟩
  rw [h0]
  rfl

/-! ### Well-formed documents -/

/-- There is a line, and the log holds records. -/
structure Wf (d : Doc) : Prop where
  lines_ne : d.lines ≠ []
  records : ∀ r ∈ d.log, IsRecord r

theorem Wf.newest (W : d.Wf) (r : Line) (hr : d.log.getLast? = some r) : IsRecord r :=
  W.records r (List.mem_of_getLast? hr)

theorem length_insLines (hm : m ≤ ls.length) (c : Line) :
    (insLines ls m c).length = ls.length + 1 := by
  rw [insLines, List.length_insertIdx_of_le_length]
  unfold insPos
  split <;> omega

theorem length_delLines (hm : m < ls.length) :
    (delLines ls m).length = if ls.length ≤ 1 then 1 else ls.length - 1 := by
  unfold delLines
  split_ifs
  · rfl
  · rw [List.length_eraseIdx_of_lt hm]

theorem Wf.effect (W : d.Wf) (hk : d.lines.length ≤ 255) (E : d.Effect cmd d') : d'.Wf := by
  cases E with
  | quiet hs hl => exact ⟨W.lines_ne, fun r hr => W.records r (hl.subset hr)⟩
  | @insert st m c extra hi hs hm hc =>
    refine ⟨List.ne_nil_of_length_pos ?_, fun r hr => ?_⟩
    · exact (length_insLines hm c).symm ▸ Nat.succ_pos _
    · simp only [Doc.insert] at hr
      split_ifs at hr
      · exact W.records r hr
      · obtain hr | rfl := Undo.mem_push hr
        · exact W.records r hr
        · exact isRecord_ins (Nat.le_trans hm hk) _
  | @replace st m c hs hm hc =>
    refine ⟨by simpa [Doc.replace] using W.lines_ne, fun r hr => ?_⟩
    obtain hr | rfl := Undo.mem_push hr
    · exact W.records r hr
    · exact isRecord_mod (Nat.le_trans hm.le hk) _
  | rewrite hs hl hm hc =>
    exact ⟨by simpa [Doc.replace] using W.lines_ne, fun r hr => W.records r (hl.subset hr)⟩
  | delete hl hm =>
    refine ⟨List.ne_nil_of_length_pos ?_, fun r hr => W.records r (hl.subset hr)⟩
    rw [length_delLines hm]
    split <;> omega
  | init => exact ⟨by simp [Doc.init, initLines, initText], W.records⟩
  | save => exact ⟨W.lines_ne, W.records⟩

theorem Wf.step (W : d.Wf) (hk : d.lines.length ≤ 255) (h : d.step = some d') : d'.Wf :=
  Wf.effect (d := { d with stdin := (gets d.stdin).2 }) ⟨W.1, W.2⟩ hk (step_effect h).1

/-! ### The number of lines -/

/-- The command at the prompt is not an `ins` that is accepted with 255 lines. -/
def Fits (d : Doc) : Prop :=
  d.lines.length = 255 → ∀ n extra, d.command = .ins n extra → ¬(1 ≤ n ∧ n ≤ 256)

theorem length_ins (h : d.ins n extra = some d') :
    d'.lines.length =
      if n ≤ 0 ∨ n > d.lines.length + 1 then d.lines.length else d.lines.length + 1 := by
  unfold ins at h
  split_ifs at h ⊢ with hn
  · cases h
    rfl
  · obtain ⟨p, hp, rfl⟩ := Option.map_eq_some_iff.1 h
    obtain ⟨st, -, hd, -⟩ := readContent_cases hp
    rw [hd]
    exact length_insLines (show (n - 1).toNat ≤ d.lines.length by omega) _

/-- Only `ins` makes a text longer than 255 lines. -/
theorem Effect.length_le (hk : d.lines.length ≤ 255) (hi : ∀ n extra, cmd ≠ .ins n extra)
    (E : d.Effect cmd d') : d'.lines.length ≤ 255 := by
  cases E with
  | quiet | save => exact hk
  | insert h => exact absurd h (hi _ _)
  | replace | rewrite => exact (List.length_set ..).trans_le hk
  | delete hl hm =>
    rw [length_delLines hm]
    split <;> omega
  | init =>
    simp only [Doc.init, initLines, List.length_append, List.length_drop, length_initText]
    omega

theorem length_step_le_iff (hk : d.lines.length ≤ 255) (h : d.step = some d') :
    d'.lines.length ≤ 255 ↔ d.Fits := by
  obtain ⟨E, -⟩ := step_effect h
  unfold step at h
  split_ifs at h
  by_cases hi : ∃ n extra, d.command = .ins n extra
  · obtain ⟨n, extra, hc⟩ := hi
    rw [hc] at h
    have hlen := length_ins (d := { d with stdin := (gets d.stdin).2 }) h
    simp only [Fits, hc, Command.ins.injEq, and_imp, forall_apply_eq_imp_iff, forall_eq'] at hlen ⊢
    rw [hlen]
    split_ifs <;> omega
  · have hi' : ∀ n extra, d.command ≠ .ins n extra := fun n extra hc => hi ⟨n, extra, hc⟩
    have hle := Effect.length_le (d := { d with stdin := (gets d.stdin).2 }) hk hi' E
    exact iff_of_true hle fun _ n extra hc => absurd hc (hi' n extra)

/-! ### Lines without newlines -/

/-- No line has a newline, nor has what `rb` would put into one, and there is no NUL in what is
left to read. -/
structure Plain (d : Doc) : Prop where
  lines : NoNewline d.lines
  log : ∀ r ∈ d.log, ∀ n c, decode r = .rewrite n c → '\n'.toUInt8 ∉ c
  stdin : 0 ∉ d.stdin

theorem Plain.source (P : d.Plain) (hx : '\n'.toUInt8 ∉ cmd.extra) (h : d.Source cmd c) :
    '\n'.toUInt8 ∉ c := by
  obtain rfl | rfl | ⟨r, hr, n, hdec⟩ := h
  · exact hx
  · exact newline_notMem_gets _
  · exact P.log r hr n c hdec

theorem newline_notMem_recordContent {k : ℕ} (h : '\n'.toUInt8 ∉ l) :
    '\n'.toUInt8 ∉ recordContent k l := by
  unfold recordContent
  split_ifs
  · exact fun h' => h ((cstr_sublist l).subset h')
  · simp

theorem noNewline_set (h : NoNewline ls) (hc : '\n'.toUInt8 ∉ c) (m : ℕ) :
    NoNewline (ls.set m c) := by
  intro l hl
  obtain hl | rfl := List.mem_or_eq_of_mem_set hl
  · exact h l hl
  · exact hc

theorem Plain.effect (P : d.Plain) (hk : d.lines.length ≤ 255) (hx : '\n'.toUInt8 ∉ cmd.extra)
    (E : d.Effect cmd d') : d'.Plain := by
  cases E with
  | quiet hs hl =>
    exact ⟨P.lines, fun r hr => P.log r (hl.subset hr), fun h => P.stdin (hs.subset h)⟩
  | @insert st m c extra hi hs hm hc =>
    refine ⟨fun l hl => ?_, fun r hr n c' hdec => ?_, fun h => P.stdin (hs.subset h)⟩
    · obtain rfl | hl := List.eq_or_mem_of_mem_insertIdx hl
      · exact P.source hx hc
      · exact P.lines l hl
    · simp only [Doc.insert] at hr
      split_ifs at hr
      · exact P.log r hr n c' hdec
      · obtain hr | rfl := Undo.mem_push hr
        · exact P.log r hr n c' hdec
        · rw [decode_undoRecord_ins (by omega)] at hdec
          cases hdec
  | @replace st m c hs hm hc =>
    refine ⟨noNewline_set P.lines (P.source hx hc) m, fun r hr n c' hdec => ?_,
      fun h => P.stdin (hs.subset h)⟩
    obtain hr | rfl := Undo.mem_push hr
    · exact P.log r hr n c' hdec
    · rw [decode_undoRecord_mod (by omega)] at hdec
      cases hdec
      refine newline_notMem_recordContent ?_
      rw [List.getElem?_eq_getElem hm, Option.getD_some]
      exact P.lines _ (List.getElem_mem hm)
  | rewrite hs hl hm hc =>
    exact ⟨noNewline_set P.lines (P.source hx hc) _, fun r hr => P.log r (hl.subset hr),
      fun h => P.stdin (hs.subset h)⟩
  | delete hl hm =>
    refine ⟨fun l h => ?_, fun r hr => P.log r (hl.subset hr), P.stdin⟩
    simp only [delLines] at h
    split_ifs at h
    · rw [List.mem_singleton.1 h]
      simp
    · exact P.lines l (List.mem_of_mem_eraseIdx h)
  | init =>
    refine ⟨fun l h => ?_, P.log, P.stdin⟩
    obtain h | h := List.mem_append.1 h
    · exact (initText_spec l h).2
    · exact P.lines l (List.mem_of_mem_drop h)
  | save => exact ⟨P.lines, P.log, P.stdin⟩

/-- Without a NUL in the line the buffer holds it up to its last character. -/
theorem inputBuffer_eq {got : List UInt8} (h0 : 0 ∉ got) (hne : got ≠ [])
    (hlen : got.length ≤ 255) :
    inputBuffer got = pad 256 got.dropLast := by
  obtain ⟨l, c, rfl⟩ : ∃ l c, got = l ++ [c] := by
    rcases List.eq_nil_or_concat got with h | ⟨l, c, rfl⟩
    · exact absurd h hne
    · exact ⟨l, c, by simp⟩
  simp only [List.length_append, List.length_singleton] at hlen
  have hk : 256 - l.length = (256 - (l.length + 1)) + 1 := by omega
  rw [inputBuffer, cstr_pad h0 (by simp; omega), List.dropLast_concat, pad, pad, hk,
    List.replicate_succ]
  simp [List.set_append_right]

theorem newline_notMem_inputBuffer {inp : List UInt8} (h0 : 0 ∉ inp) (hne : (gets inp).1 ≠ []) :
    '\n'.toUInt8 ∉ inputBuffer (gets inp).1 := by
  rw [inputBuffer_eq (fun h => h0 (gets_append inp ▸ List.mem_append_left _ h)) hne
    (length_gets_le inp), pad, List.mem_append, not_or]
  exact ⟨newline_notMem_getsFrom 255 inp, fun h => absurd (List.mem_replicate.1 h).2 (by decide)⟩

theorem Plain.step (P : d.Plain) (hk : d.lines.length ≤ 255) (h : d.step = some d') : d'.Plain := by
  obtain ⟨E, hne⟩ := step_effect h
  refine Plain.effect (d := { d with stdin := (gets d.stdin).2 })
    ⟨P.lines, P.log, fun h => P.stdin ((gets_suffix d.stdin).subset h)⟩ hk ?_ E
  intro h
  obtain hx | hx := parse_extra (d.lines.length - 1) (inputBuffer (gets d.stdin).1) <;>
    rw [command, hx] at h
  · simp at h
  · exact newline_notMem_inputBuffer P.stdin hne
      (List.mem_of_mem_drop ((cstr_sublist _).subset h))

end Doc

end Xv6Editor
