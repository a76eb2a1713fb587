import Xv6Editor.Edit.Insert
import Xv6Editor.Runs.Full

/-!
# The memory stays in order

`Held s` says that the memory of `s` represents a text and an undo log.  In contrast to `RepInv` the
text may fill the whole array.  The scans run out of it then, but a command that comes back leaves
the memory in order.

* `Held.comIns`, `Held.comMod`, `Held.comDel`, `Held.comRollback` : what the commands do to the log.
* `Reachable.atPrompt` : at every prompt the memory is in order, and the log holds records of
  `com_ins` and `com_mod`.
-/

namespace Xv6Editor

/-- The memory represents a text, with at least one line, and an undo log. -/
def Held (s : State) : Prop := ∃ d, Mem False s d ∧ d.lines ≠ []

/-- What `com_ins` and `com_mod` do to the log: nothing, or, with `flag` set, they add a record. -/
def Recorded (flag : Bool) (log log' : List Line) : Prop :=
  log' = log ∨ flag = true ∧ ∃ r, IsRecord r ∧ log' = Undo.push 20 log r

variable {disp : Display} {zt : Prop} {s s' : State} {d d' : Doc} {n ln : ℤ} {m : ℕ} {p : Ptr}
  {c r extra : Line} {log log' : List Line} {flag : Bool} {o : Option Doc}

theorem Computes.of_ok (h : Computes disp zt ln o (.ok s)) : ∃ d, o = some d ∧ Mem zt s d := by
  cases o with
  | none => cases h
  | some d => exact ⟨d, rfl, (EndsIn.of_ok h rfl).1⟩

theorem Recorded.eq (h : Recorded false log log') : log' = log := by
  obtain h | ⟨h, -⟩ := h
  · exact h
  · cases h

/-! ### Documents -/

theorem Recorded.ite (hr : IsRecord r) (flag : Bool) :
    Recorded flag log (if flag then Undo.push 20 log r else log) := by
  cases flag with
  | false => exact .inl rfl
  | true => exact .inr ⟨rfl, r, hr, rfl⟩

theorem Doc.insFlag_recorded (h0 : d.lines ≠ []) (hk : d.lines.length ≤ 255)
    (h : d.insFlag n extra flag = some d') : d'.lines ≠ [] ∧ Recorded flag d.log d'.log := by
  obtain ⟨d₁, h₁, rfl⟩ := Option.map_eq_some_iff.1 h
  unfold Doc.ins at h₁
  split_ifs at h₁ with hn
  · cases h₁
    exact ⟨h0, .inl (ite_self _)⟩
  · obtain ⟨⟨c, d₂⟩, hc, rfl⟩ := Option.map_eq_some_iff.1 h₁
    obtain ⟨st, -, rfl, -⟩ := Doc.readContent_cases hc
    constructor
    · refine List.ne_nil_of_length_pos ?_
      change 0 < (insLines d.lines (n - 1).toNat c).length
      rw [Doc.length_insLines (by omega)]
      exact Nat.succ_pos _
    · change Recorded flag d.log (if flag then (Doc.insert _ _ _).log else d.log)
      unfold Doc.insert
      split_ifs
      · exact .inl rfl
      · exact .inr ⟨‹_›, _, isRecord_ins (by omega) _, rfl⟩
      · exact .inl rfl

theorem Doc.mod_recorded (hk : d.lines.length ≤ 256) (h : d.mod n extra flag = some d') :
    Recorded flag d.log d'.log := by
  unfold Doc.mod at h
  split_ifs at h with hn
  · cases h
    exact .inl rfl
  · obtain ⟨⟨c, d₂⟩, hc, rfl⟩ := Option.map_eq_some_iff.1 h
    obtain ⟨st, -, rfl, -⟩ := Doc.readContent_cases hc
    exact .ite (isRecord_mod (by omega) _) flag

theorem Doc.del_ne_nil (h0 : d.lines ≠ []) (n : ℤ) :
    (d.del n).lines ≠ [] ∧ (d.del n).log = d.log := by
  unfold Doc.del
  split_ifs with hn
  · exact ⟨h0, rfl⟩
  · refine ⟨List.ne_nil_of_length_pos ?_, rfl⟩
    rw [Doc.length_delLines (by omega)]
    split_ifs <;> omega

/-! ### Memory -/

theorem Mem.length_le (M : Mem zt s d) : d.lines.length ≤ 256 := by
  obtain ⟨ps, qs, H⟩ := M.rep
  exact H.length_eq ▸ H.length_ps

/-- A string in a block ends before the block does. -/
theorem strAt_spec (s : State) (p : Ptr) (off : ℕ) :
    Ensures (fun c => 0 ∉ c ∧ c.length < 256) (s.strAt p off) := by
  refine .bind (.trivial _) fun b _ => .ite (fun h0 => .ok ⟨zero_notMem_cstr _, ?_⟩) fun _ =>
    .error _
  have hlt := cstr_length_lt h0
  rw [List.length_drop, b.length_bytes] at hlt
  omega

namespace Held

/-- Only the text, the heap and the log matter. -/
theorem congr (h : Held s) (ht : s'.text = s.text) (hh : s'.heap = s.heap)
    (hc : s'.commandSet = s.commandSet) (hu : s'.upperBound = s.upperBound) :
    Held s' ∧ s'.log = s.log := by
  obtain ⟨d, M, h0⟩ := h
  obtain ⟨ps, qs, H⟩ := M.rep
  have H' := H.congr ht hh hc hu
  exact ⟨⟨⟨d.lines, d.log, s'.changed, s'.stdin, s'.disk, s'.page0⟩,
    ⟨⟨ps, qs, H'⟩, rfl, rfl, rfl, rfl⟩, h0⟩, H'.log_eq.trans H.log_eq.symm⟩

theorem of_eq (h : Held s) (ht : s'.text = s.text) (hh : s'.heap = s.heap)
    (hc : s'.commandSet = s.commandSet) (hu : s'.upperBound = s.upperBound) : Held s' :=
  (h.congr ht hh hc hu).1

theorem upperBound_eq (h : Held s) : s.upperBound = s.log.length - 1 ∧ s.log.length ≤ 20 := by
  obtain ⟨d, M, -⟩ := h
  obtain ⟨ps, qs, H⟩ := M.rep
  rw [M.log_eq, ← H.length_log]
  exact ⟨H.upperBound_eq, H.length_qs⟩

theorem recordCommand (h : Held s) (hc : 0 ∉ c) (hlen : c.length < 256) :
    ∃ s', recordCommand s c = .ok s' ∧ Held s' ∧ s'.log = Undo.push 20 s.log c := by
  obtain ⟨d, M, h0⟩ := h
  obtain ⟨ps, qs, H⟩ := M.rep
  obtain ⟨cs, h, u, qs', hr, H'⟩ := H.recordCommand hc hlen
  refine ⟨_, hr, ⟨{ d with log := Undo.push 20 d.log c },
    { M with rep := ⟨ps, qs', H'⟩ }, h0⟩, ?_⟩
  rw [H'.log_eq, M.log_eq]

theorem comDel (h : Held s) (disp : Display) (n : ℤ) (flag : Bool) :
    Ensures (fun s' => Held s' ∧ s'.log = s.log) (comDel disp s n flag) := by
  intro s' hs
  have hs₀ := h
  obtain ⟨d, M, h0⟩ := h
  rcases Nat.lt_or_ge 255 d.lines.length with hk | hk
  · -- the loop of a full array does not come back, so the number was refused
    rw [(M.full hk).comDel_refused disp n flag s' hs]
    exact hs₀.congr rfl rfl rfl rfl
  · have hC : Computes disp False s.lineNumber (some (d.del n)) _ := M.comDel hk n flag
    rw [hs] at hC
    obtain ⟨d', hd, M'⟩ := hC.of_ok
    cases hd
    obtain ⟨hne, hlog⟩ := Doc.del_ne_nil h0 n
    exact ⟨⟨_, M', hne⟩, by rw [M'.log_eq, M.log_eq, hlog]⟩

theorem comMod (h : Held s) (disp : Display) (n : ℤ) (hc : 0 ∉ c) (hlen : c.length < 256)
    (flag : Bool) :
    Ensures (fun s' => Held s' ∧ Recorded flag s.log s'.log) (comMod disp s n c flag) := by
  intro s' hs
  obtain ⟨d, M, h0⟩ := h
  have hC : Computes disp False s.lineNumber (d.mod n c flag) _ := M.comMod hc hlen n flag
  rw [hs] at hC
  obtain ⟨d', hd, M'⟩ := hC.of_ok
  refine ⟨⟨d', M', fun h => h0 ?_⟩, ?_⟩
  · have hlen := Doc.mod_length hd
    rw [h] at hlen
    exact List.length_eq_zero_iff.1 hlen.symm
  · rw [M'.log_eq, M.log_eq]
    exact Doc.mod_recorded M.length_le hd

/-- `com_ins` on a full text. -/
theorem comIns_full (M : Mem False s d) (hk : d.lines.length = 256) (disp : Display) (n : ℤ)
    (hc : 0 ∉ c) (hlen : c.length < 256) (flag : Bool) :
    Ensures (fun s' => Held s' ∧ Recorded flag s.log s'.log)
      (Xv6Editor.comIns disp s n c flag) := by
  obtain ⟨ps, qs, H⟩ := M.rep
  have hg := H.getLineNumber_eq
  have h0 : d.lines ≠ [] := List.ne_nil_of_length_pos (hk ▸ by decide)
  intro s' hs
  by_cases hn : n ≤ 0 ∨ 257 < n
  · rw [H.comIns_full_refused disp hk hn c flag] at hs
    cases hs
    exact ⟨⟨d, M.print _, h0⟩, .inl rfl⟩
  obtain ⟨-, hr⟩ | ⟨c', st, out, -, hr, hc', hlen'⟩ := M.readContent hc hlen
  · -- the input is at its end, which is an error
    rw [Xv6Editor.comIns, if_neg (by omega)] at hs
    simp only [hr, fail, bind, Except.bind] at hs
    cases hs
  rcases Int.lt_or_eq_of_le (show n ≤ 257 by omega) with hlt | rfl
  · obtain ⟨m, rfl⟩ : ∃ m : ℕ, n = (m + 1 : ℕ) := ⟨(n - 1).toNat, by omega⟩
    have hm : m < 256 := by omega
    obtain ⟨cs, h, u, qs', part4, hi, H'⟩ := H.comIns_full disp hk hm hr hc' hlen' flag
    have M' : Mem False _ { d with
        lines := (d.lines.insertIdx m c').dropLast, stdin := st, changed := true,
        log := if flag then Undo.push 20 d.log (undoRecord "ins-" (m + 1 : ℕ) part4) else d.log } :=
      ⟨⟨ps, qs', H'⟩, rfl, rfl, M.disk_eq, M.page0_eq⟩
    have hE : EndsIn disp _ _ (autoDisplay disp _) := M'.autoDisplay
    have M₁ := (hE.of_ok (hi.symm.trans hs)).1
    refine ⟨⟨_, M₁, List.ne_nil_of_length_pos ?_⟩, ?_⟩
    · rw [List.length_dropLast, List.length_insertIdx_of_le_length (by omega)]
      omega
    · rw [M₁.log_eq, M.log_eq]
      exact .ite (isRecord_ins (by omega) _) flag
  · -- `text[256]` is not there
    rw [H.comIns_past_full disp hk hr flag] at hs
    cases hs

theorem comIns (h : Held s) (disp : Display) (n : ℤ) (hc : 0 ∉ c) (hlen : c.length < 256)
    (flag : Bool) :
    Ensures (fun s' => Held s' ∧ Recorded flag s.log s'.log) (comIns disp s n c flag) := by
  obtain ⟨d, M, h0⟩ := h
  rcases Nat.lt_or_ge 255 d.lines.length with hk | hk
  · exact comIns_full M (Nat.le_antisymm M.length_le hk) disp n hc hlen flag
  · intro s' hs
    have hC : Computes disp False s.lineNumber (d.insFlag n c flag) _ :=
      M.comIns_flag h0 hk hc hlen n flag
    rw [hs] at hC
    obtain ⟨d', hd, M'⟩ := hC.of_ok
    obtain ⟨hne, hlog⟩ := Doc.insFlag_recorded h0 hk hd
    exact ⟨⟨d', M', hne⟩, by rwa [M'.log_eq, M.log_eq]⟩

/-! ### Undo -/

theorem updateLineNumber (h : Held s ∧ s.log = log) :
    Held (updateLineNumber s) ∧ (updateLineNumber s).log = log := by
  obtain ⟨h, rfl⟩ := h
  exact h.congr rfl rfl rfl rfl

/-- Following a record keeps the log, whatever the record says. -/
theorem replay (h : Held s) (disp : Display) (p : Ptr) :
    Ensures (fun s' => Held s' ∧ s'.log = s.log) (replay disp s p) := by
  refine .bind (.trivial _) fun b _ => .ite (fun _ => ?_) fun _ => .ite (fun _ => ?_) fun _ =>
    .ite (fun _ => ?_) fun _ => .ok ⟨h, rfl⟩
  · exact .bind (.trivial _) fun l _ => .bind (h.comDel disp _ false) fun s' hs =>
      .ok (updateLineNumber hs)
  · exact .bind (.trivial _) fun l _ => .bind (strAt_spec s p _) fun c hc =>
      .bind (h.comMod disp _ hc.1 hc.2 false) fun s' hs => .ok (updateLineNumber ⟨hs.1, hs.2.eq⟩)
  · exact .bind (.trivial _) fun l _ => .bind (strAt_spec s p _) fun c hc =>
      .bind (h.comIns disp _ hc.1 hc.2 false) fun s' hs => .ok (updateLineNumber ⟨hs.1, hs.2.eq⟩)

theorem comRollback_nil (h : Held s) (disp : Display) (hlog : s.log = []) :
    comRollback disp s = .ok (s.print (alarm "couldn't rollback")) := by
  obtain ⟨d, M, -⟩ := h
  exact M.comRollback_nil disp (List.getLast?_eq_none_iff.2 (M.log_eq ▸ hlog))

/-- `com_rollback` follows a copy of the newest record, once that is off the log. -/
theorem comRollback_replay (h : Held s) (disp : Display) (hlast : s.log.getLast? = some r) :
    ∃ s' p b junk, Held s' ∧ s'.nullReads = s.nullReads ∧ s'.log = s.log.dropLast ∧
      s'.lines = s.lines ∧ s'.heap.get p = some b ∧ b.bytes = r ++ 0 :: junk ∧
      comRollback disp s = Xv6Editor.replay disp s' p := by
  obtain ⟨d, M, h0⟩ := h
  rw [M.log_eq] at hlast ⊢
  obtain ⟨s', p, b, junk, M', hnr, hb, hbytes, hs⟩ := M.comRollback_replay disp hlast
  exact ⟨s', p, b, junk, ⟨_, M', h0⟩, hnr, M'.log_eq, M'.lines_eq.trans M.lines_eq.symm, hb,
    hbytes, hs⟩

theorem comRollback (h : Held s) (disp : Display) :
    Ensures (fun s' => Held s' ∧ s'.log = s.log.dropLast) (comRollback disp s) := by
  cases hlast : s.log.getLast? with
  | none =>
    have hlog := List.getLast?_eq_none_iff.1 hlast
    rw [h.comRollback_nil disp hlog]
    refine .ok ?_
    rw [hlog, List.dropLast_nil, ← hlog]
    exact h.congr rfl rfl rfl rfl
  | some r =>
    obtain ⟨s', p, -, -, h', -, hlog, -, -, -, hs⟩ := h.comRollback_replay disp hlast
    rw [hs, ← hlog]
    exact h'.replay disp p

/-! ### The other commands -/

/-- `com_save` writes to the disk, and to the console. -/
theorem comSave (h : Held s) : Ensures (fun s' => Held s' ∧ s'.log = s.log) (comSave s) := by
  -- all that changes up to the last two steps is the disk
  have hopen : ∃ k, s.unlink.openCreate.2 = { s with disk := k } := ⟨_, rfl⟩
  unfold Xv6Editor.comSave
  generalize s.unlink.openCreate = r at hopen ⊢
  obtain ⟨_ | _, s₁⟩ := r
  · exact .error _
  · obtain ⟨k, rfl⟩ := hopen
    refine .bind (.trivial _) fun o _ => ?_
    cases o with
    | none => exact .ok (h.congr rfl rfl rfl rfl)
    | some p =>
      refine .bind (.trivial _) fun l _ => .bind (scanSlots_ensuresOr (E := fun _ => True)
        (I := fun a => ∃ k, a.2 = { s with disk := k }) (fun _ => trivial) ?_ _ _ ⟨_, rfl⟩).1 ?_
      · rintro j p ⟨off, _⟩ ⟨k, rfl⟩
        exact ⟨.bind (.trivial _) fun l _ => .ok ⟨_, rfl⟩, fun _ _ => trivial⟩
      · rintro ⟨off, _⟩ ⟨k, rfl⟩
        exact .ok (h.congr rfl rfl rfl rfl)

theorem comInitFile (h : Held s) (disp : Display) :
    Ensures (fun s' => Held s' ∧ s'.log = s.log) (comInitFile disp s) := by
  obtain ⟨d, M, -⟩ := h
  obtain ⟨ps, qs, H⟩ := M.rep
  obtain ⟨t, h, ps', hi, H'⟩ := H.initShift (i := 0) initText (Nat.zero_le _)
    (by rw [length_initText]; omega) fun l hl => (initText_spec l hl).1
  have hne : d.lines.take 0 ++ initText ++ d.lines.drop (0 + initText.length) ≠ [] :=
    List.append_ne_nil_of_left_ne_nil (List.append_ne_nil_of_right_ne_nil _ (by decide)) _
  have hheld : Held { s with text := t, heap := h } :=
    ⟨⟨_, d.log, d.changed, d.stdin, d.disk, d.page0⟩, { M with rep := ⟨ps', qs, H'⟩ }, hne⟩
  have hlog : State.log { s with text := t, heap := h } = s.log := H'.log_eq.trans M.log_eq.symm
  rw [Xv6Editor.comInitFile, hi, ← hlog]
  refine .bind (P := (· = { s with text := t, heap := h })) (.ok rfl) ?_
  rintro _ rfl
  exact .bind (.trivial _) fun out _ => .ok (hheld.congr rfl rfl rfl rfl)

end Held

/-- What holds at a prompt: the memory is in order, and the log holds records of `com_ins` and
`com_mod`. -/
structure AtPrompt (s : State) : Prop where
  held : Held s
  records : ∀ r ∈ s.log, IsRecord r

namespace AtPrompt

theorem of_subset (h : AtPrompt s) (hs : Held s' ∧ s'.log ⊆ s.log) : AtPrompt s' :=
  ⟨hs.1, fun r hr => h.records r (hs.2 hr)⟩

theorem of_eq (h : AtPrompt s) (hs : Held s' ∧ s'.log = s.log) : AtPrompt s' :=
  h.of_subset ⟨hs.1, hs.2 ▸ List.Subset.refl _⟩

theorem of_recorded (h : AtPrompt s) (hs : Held s' ∧ Recorded flag s.log s'.log) :
    AtPrompt s' := by
  obtain ⟨hs, hlog | ⟨-, r, hr, hlog⟩⟩ := hs
  · exact h.of_eq ⟨hs, hlog⟩
  · refine ⟨hs, fun r' hr' => ?_⟩
    rw [hlog] at hr'
    obtain hr' | rfl := Undo.mem_push hr'
    · exact h.records r' hr'
    · exact hr

theorem congr (h : AtPrompt s) (ht : s'.text = s.text) (hh : s'.heap = s.heap)
    (hc : s'.commandSet = s.commandSet) (hu : s'.upperBound = s.upperBound) : AtPrompt s' :=
  h.of_eq (h.held.congr ht hh hc hu)

theorem exec (h : AtPrompt s) (disp : Display) {c : Command} (hc : c.Fits) :
    Ensures AtPrompt (exec disp c s) := by
  cases c with
  | ins n extra =>
    exact .bind (h.held.comIns disp n hc.1 hc.2 true) fun _ hs =>
      .ok ((h.of_recorded hs).congr rfl rfl rfl rfl)
  | mod n extra => exact fun _ hs => h.of_recorded (h.held.comMod disp n hc.1 hc.2 true _ hs)
  | del n =>
    exact .bind (h.held.comDel disp n true) fun _ hs => .ok ((h.of_eq hs).congr rfl rfl rfl rfl)
  | rb =>
    intro s' hs
    obtain ⟨hs, hlog⟩ := h.held.comRollback disp s' hs
    exact h.of_subset ⟨hs, hlog ▸ List.dropLast_subset _⟩
  | save => exact fun _ hs => h.of_eq (h.held.comSave _ hs)
  | exit => exact .bind (.trivial _) fun _ _ => .bind (.trivial _) fun _ _ => .error _
  | init => exact fun _ hs => h.of_eq (h.held.comInitFile disp _ hs)
  | disp | normaldisp => exact .bind (.trivial _) fun _ _ => .ok (h.congr rfl rfl rfl rfl)
  | «show» | hide | help | demo | invalid => exact .ok (h.congr rfl rfl rfl rfl)

theorem promptStep (h : AtPrompt s) (disp : Display) :
    Ensures AtPrompt (promptStep disp s) := by
  rw [promptStep_eq]
  refine .ite (fun _ => .error _) fun _ => exec ?_ disp (parse_fits _ (length_inputBuffer _))
  exact h.congr rfl rfl rfl rfl

end AtPrompt

theorem Reachable.atPrompt (h : Reachable disp s) : AtPrompt s := by
  obtain ⟨s₀, hi, hs⟩ := h
  induction hs with
  | refl =>
    obtain ⟨d, A, W, -⟩ := hi.abs
    exact ⟨⟨d, A.toMem, W.lines_ne⟩, fun r hr => W.records r (A.log_eq ▸ hr)⟩
  | tail _ hstep ih => exact ih.promptStep disp _ hstep

end Xv6Editor
