import Xv6Editor.Input.End

/-!
# Which slots are read and written

`com_ins`, `com_mod` and `com_del` read and write the strings behind slots of `text`.  A NULL slot
does not stop a read: the string at address 0 is taken instead, and the model notes the slot in
`nullReads`.  A write through a NULL slot is an error.

* `Mem.comIns_nulls`, `Mem.comMod_nulls`, `Mem.comDel_nulls` : the slots each function notes.
* `nullFree_iff` : an edit goes through a NULL slot only if it is an insertion after the last line.
  The copy for the undo record is made there before the line exists.
-/

namespace Xv6Editor

/-- The commands that change lines one at a time. -/
def Command.IsEdit : Command → Prop
  | .ins _ _ | .mod _ _ | .del _ | .rb => True
  | _ => False

/-- From `s` on, the computation `r` neither reads nor writes through a NULL slot of `text`.  It
comes back, or it stops in the record that it replays, before it has come to the text. -/
structure NullFree (s : State) (r : Except Halt State) : Prop where
  reads : ∀ s', r = .ok s' → s'.nullReads = s.nullReads
  stops : ∀ e, r = .error e → ∃ p, e = .fault (.unterminated p)

variable {zt : Prop} {s s' : State} {d : Doc} {c : Command} {r : Except Halt State} {p : Ptr}
  {b : Block 256} {extra : Line} {k : ℕ} {flag : Bool} {n : ℤ}

namespace NullFree

theorem ok (h : s'.nullReads = s.nullReads) : NullFree s (.ok s') := by
  refine ⟨?_, nofun⟩
  rintro _ ⟨⟩
  exact h

/-- After it has come back, the rest of a command changes only other fields. -/
theorem bind_ok {f : State → State} (hf : ∀ s, (f s).nullReads = s.nullReads) (h : NullFree s r) :
    NullFree s (r >>= fun s => .ok (f s)) := by
  cases r with
  | ok s' => exact .ok ((hf s').trans (h.reads s' rfl))
  | error e => exact ⟨nofun, h.stops⟩

theorem of_returns (h : ∃ s', r = .ok s' ∧ s'.nullReads = s.nullReads) : NullFree s r := by
  obtain ⟨s', rfl, hs⟩ := h
  exact .ok hs

end NullFree

/-! ### The functions -/

/-- `com_ins` with an undo record reads the slot after the last line before it is filled. -/
theorem Mem.comIns_nulls (M : Mem zt s d) (h0 : d.lines ≠ []) (hk : d.lines.length ≤ 255)
    (hx : 0 ∉ extra) (hlen : extra.length < 256) (hst : extra = [] → LineReady s.stdin) (n : ℤ)
    (flag : Bool) :
    ∃ s', Xv6Editor.comIns noDisplay s n extra flag = .ok s' ∧ s'.nullReads =
      if n = d.lines.length + 1 ∧ flag then s.nullReads ++ [d.lines.length] else s.nullReads := by
  obtain ⟨ps, qs, H⟩ := M.rep
  have hg := H.getLineNumber_eq
  by_cases hn : n ≤ 0 ∨ n > d.lines.length + 1
  · rw [Xv6Editor.comIns, if_pos (by omega), if_neg (by omega)]
    exact ⟨_, rfl, rfl⟩
  obtain ⟨m, rfl, hm⟩ : ∃ m : ℕ, n = (m + 1 : ℕ) ∧ m ≤ d.lines.length :=
    ⟨(n - 1).toNat, by omega, by omega⟩
  obtain ⟨c, st, out, hr, hc, hc'⟩ := M.readContent_ready hx hlen hst
  rcases Nat.lt_or_eq_of_le hm with hlt | rfl
  · obtain ⟨t, cs, h, u, ps', qs', hi, -⟩ :=
      H.comIns_lt noDisplay hlt hk (List.getElem?_eq_getElem hlt) hr hc hc' flag
    rw [hi, autoDisplay_noDisplay, if_neg (by omega)]
    exact ⟨_, rfl, rfl⟩
  · obtain ⟨t, nr, cs, h, u, ps', qs', hi, hnr, -⟩ :=
      H.comIns_length noDisplay hk (List.getLast?_eq_some_getLast h0) hr hc hc' flag
    rw [hi, autoDisplay_noDisplay]
    refine ⟨_, rfl, hnr.trans ?_⟩
    simp only [Nat.cast_add, Nat.cast_one, true_and]

theorem Mem.comMod_nulls (M : Mem zt s d) (hx : 0 ∉ extra) (hlen : extra.length < 256)
    (hst : extra = [] → LineReady s.stdin) (n : ℤ) (flag : Bool) :
    ∃ s', Xv6Editor.comMod noDisplay s n extra flag = .ok s' ∧ s'.nullReads = s.nullReads := by
  obtain ⟨ps, qs, H⟩ := M.rep
  have hg := H.getLineNumber_eq
  by_cases hn : n ≤ 0 ∨ n > d.lines.length
  · rw [Xv6Editor.comMod, if_pos (by omega)]
    exact ⟨_, rfl, rfl⟩
  obtain ⟨m, rfl, hm⟩ := exists_line_number hn
  obtain ⟨c, st, out, hr, hc, hc'⟩ := M.readContent_ready hx hlen hst
  obtain ⟨cs, h, u, qs', hi, -⟩ :=
    H.comMod noDisplay hm (List.getElem?_eq_getElem hm) hr hc hc' flag
  rw [hi, autoDisplay_noDisplay]
  exact ⟨_, rfl, rfl⟩

theorem Mem.comDel_nulls (M : Mem zt s d) (hk : d.lines.length ≤ 255) (n : ℤ) (flag : Bool) :
    ∃ s', Xv6Editor.comDel noDisplay s n flag = .ok s' ∧ s'.nullReads = s.nullReads := by
  obtain ⟨ps, qs, H⟩ := M.rep
  have hg := H.getLineNumber_eq
  by_cases hn : n ≤ 0 ∨ n > d.lines.length
  · rw [Xv6Editor.comDel, if_pos (by omega)]
    exact ⟨_, rfl, rfl⟩
  obtain ⟨m, rfl, hm⟩ := exists_line_number hn
  obtain ⟨t, h, ps', hi, -⟩ := H.comDel noDisplay hm hk flag
  rw [hi, autoDisplay_noDisplay]
  exact ⟨_, rfl, rfl⟩

/-! ### Undo -/

/-- The strings of a record end in its block, or the read of them leaves the block. -/
theorem NullFree.bind_strAt {off : ℕ} {f : Line → Except Halt State}
    (hb : s.heap.get p = some b) (h : ∀ l, 0 ∉ l → l.length < 256 → NullFree s (f l)) :
    NullFree s (s.strAt p off >>= f) := by
  have hspec := strAt_spec s p off
  simp only [State.strAt, State.block, hb, bind, Except.bind] at hspec ⊢
  split_ifs at hspec ⊢ with h0
  · exact h _ (hspec _ rfl).1 (hspec _ rfl).2
  · refine ⟨fun _ h => (by cases h), ?_⟩
    rintro _ ⟨⟩
    exact ⟨p, rfl⟩

/-- Whatever the record says, following it goes through no NULL slot: nothing is recorded here. -/
theorem Mem.replay_nulls (M : Mem zt s d) (h0 : d.lines ≠ []) (hk : d.lines.length ≤ 255)
    (hst : LineReady s.stdin) (hb : s.heap.get p = some b) :
    NullFree s (replay noDisplay s p) := by
  have hblock : s.block p = .ok b := by simp only [State.block, hb]
  rw [replay, hblock, ok_bind]
  dsimp only
  split_ifs
  · exact .bind_strAt hb fun l _ _ =>
      (NullFree.of_returns (M.comDel_nulls hk _ false)).bind_ok fun _ => rfl
  · exact .bind_strAt hb fun l _ _ => .bind_strAt hb fun c hc hlen =>
      (NullFree.of_returns (M.comMod_nulls hc hlen (fun _ => hst) _ false)).bind_ok fun _ => rfl
  · refine .bind_strAt hb fun l _ _ => .bind_strAt hb fun c hc hlen => ?_
    obtain ⟨s', hs, hnr⟩ := M.comIns_nulls h0 hk hc hlen (fun _ => hst) (stringtonumber l) false
    rw [if_neg (by simp)] at hnr
    exact (NullFree.of_returns ⟨s', hs, hnr⟩).bind_ok fun _ => rfl
  · exact .ok rfl

theorem Mem.comRollback_nulls (M : Mem zt s d) (h0 : d.lines ≠ []) (hk : d.lines.length ≤ 255)
    (hst : LineReady s.stdin) : NullFree s (comRollback noDisplay s) := by
  cases hlast : d.log.getLast? with
  | none =>
    rw [M.comRollback_nil noDisplay hlast]
    exact .ok rfl
  | some r =>
    obtain ⟨s', p, b, junk, M', hnr, hb, -, hroll⟩ := M.comRollback_replay noDisplay hlast
    rw [hroll]
    have h := M'.replay_nulls h0 hk (by rwa [M'.stdin_eq, ← M.stdin_eq]) hb
    exact ⟨hnr ▸ h.reads, h.stops⟩

/-- The record of an `ins` or a `mod` is followed to the end. -/
theorem Mem.comRollback_returns (M : Mem zt s d) (hk : d.lines.length ≤ 255)
    (hst : LineReady s.stdin) (hr : ∀ r ∈ d.log.getLast?, IsRecord r) :
    ∃ s', comRollback noDisplay s = .ok s' := by
  cases hlast : d.log.getLast? with
  | none => exact ⟨_, M.comRollback_nil noDisplay hlast⟩
  | some r =>
    obtain ⟨s', M', heq⟩ := M.comRollback_eq noDisplay (hr r hlast) hlast
    rw [heq]
    obtain ⟨op, hop, k, c, -, hk', rfl⟩ := hr r hlast
    simp only [List.mem_cons, List.not_mem_nil, or_false] at hop
    obtain rfl | rfl := hop
    · obtain ⟨s'', hs, -⟩ := M'.comDel_nulls hk k false
      simp only [decode_undoRecord_ins hk', hs]
      exact ⟨_, rfl⟩
    · have hlen := recordContent_length hk' c
      obtain ⟨s'', hs, -⟩ := M'.comMod_nulls (zero_notMem_recordContent k c) (by omega)
        (fun _ => by rwa [M'.stdin_eq, ← M.stdin_eq]) k false
      simp only [decode_undoRecord_mod hk', hs]
      exact ⟨_, rfl⟩

/-! ### The commands -/

theorem Mem.ins_nullFree_iff (M : Mem zt s d) (h0 : d.lines ≠ []) (hk : d.lines.length ≤ 255)
    (hx : 0 ∉ extra) (hlen : extra.length < 256) (hst : LineReady s.stdin) (n : ℤ) :
    NullFree s (exec noDisplay (.ins n extra) s) ↔ n ≠ d.lines.length + 1 := by
  obtain ⟨s', hs, hnr⟩ := M.comIns_nulls h0 hk hx hlen (fun _ => hst) n true
  have hexec : exec noDisplay (.ins n extra) s = .ok (Xv6Editor.updateLineNumber s') := by
    rw [exec, hs]
    rfl
  rw [hexec]
  constructor
  · rintro hf rfl
    -- the slot is noted
    have hsame : s'.nullReads = s.nullReads := hf.reads (Xv6Editor.updateLineNumber s') rfl
    rw [if_pos ⟨rfl, rfl⟩, hsame] at hnr
    simp at hnr
  · intro hn
    rw [if_neg fun h => hn h.1] at hnr
    exact .ok hnr

/-- An edit of a text of 1 to 255 lines goes through no NULL slot if and only if it is not an
insertion after the last line.  It comes back, unless the record that is undone is not one of
`com_ins` or `com_mod`. -/
theorem nullFree_iff (R : RepInv s k) (he : c.IsEdit) (hc : c.Fits) :
    (NullFree s (exec noDisplay c s.goOn) ↔ ∀ extra, c ≠ .ins (k + 1) extra) ∧
    ((c = .rb → ∀ r ∈ s.log.getLast?, IsRecord r) →
      ∃ s', exec noDisplay c s.goOn = .ok s') := by
  obtain ⟨d₀, A, rfl⟩ := R.abs
  have h0 : d₀.lines ≠ [] := List.ne_nil_of_length_pos R.one_le
  have hk := R.le
  rw [A.log_eq]
  obtain ⟨d, M, hl, hlog, hst, hnr⟩ := A.toMem.goOn
  have hnull : ∀ {r}, NullFree s.goOn r ↔ NullFree s r := fun {r} =>
    ⟨fun h => ⟨hnr ▸ h.reads, h.stops⟩, fun h => ⟨hnr ▸ h.reads, h.stops⟩⟩
  rw [← hl] at h0 hk ⊢
  rw [← hlog, ← hnull]
  cases c with
  | ins n extra =>
    refine ⟨(M.ins_nullFree_iff h0 hk hc.1 hc.2 hst n).trans ⟨?_, ?_⟩, fun _ => ?_⟩
    · rintro hn _ ⟨⟩
      exact hn rfl
    · rintro hn rfl
      exact hn extra rfl
    · have hx : 0 ∉ extra := hc.1
      obtain ⟨s', hs, -⟩ := M.comIns_nulls h0 hk hx hc.2 (fun _ => hst) n true
      exact ⟨_, by rw [exec, hs]; rfl⟩
  | mod n extra =>
    have h := M.comMod_nulls hc.1 hc.2 (fun _ => hst) n true
    exact ⟨⟨fun _ _ hi => (by cases hi), fun _ => .of_returns h⟩, fun _ => h.imp fun _ => And.left⟩
  | del n =>
    have h := M.comDel_nulls hk n true
    refine ⟨⟨fun _ _ hi => (by cases hi),
      fun _ => (NullFree.of_returns h).bind_ok fun _ => rfl⟩, fun _ => ?_⟩
    obtain ⟨s', hs, -⟩ := h
    exact ⟨_, by rw [exec, hs]; rfl⟩
  | rb =>
    exact ⟨⟨fun _ _ hi => (by cases hi), fun _ => M.comRollback_nulls h0 hk hst⟩, fun hr =>
      M.comRollback_returns hk hst (hr rfl)⟩
  | «show» | hide | help | save | exit | demo | init | disp | normaldisp | invalid => exact he.elim

/-- `ins-1 x` in a file of one line. -/
theorem nullFree_first_line : ∃ s, s.lines = [bytesOf "a"] ∧
    NullFree s (exec noDisplay (.ins 1 (bytesOf "x")) s.goOn) := by
  obtain ⟨s, A⟩ := exists_session False (bytesOf "a") [] False.elim
  have hl : s.lines = [bytesOf "a"] := A.lines_eq.trans (by decide)
  have R : RepInv s 1 := A.repInv (by decide) (by decide)
  refine ⟨s, hl, (nullFree_iff (c := .ins 1 (bytesOf "x")) R trivial (by decide)).1.2 ?_⟩
  rintro extra h
  cases h

/-- `ins x` in a file of one line: the slot of the second line is read while it is NULL. -/
theorem not_nullFree_append : ∃ s s', RepInv s 1 ∧
    exec noDisplay (.ins 2 (bytesOf "x")) s = .ok s' ∧ s'.nullReads = s.nullReads ++ [1] ∧
    ¬NullFree s (exec noDisplay (.ins 2 (bytesOf "x")) s) := by
  obtain ⟨s, A⟩ := exists_session False (bytesOf "a") [] False.elim
  have R : RepInv s 1 := A.repInv (by decide) (by decide)
  have hx : 0 ∉ bytesOf "x" := by decide
  obtain ⟨s', hs, hnr⟩ := A.comIns_nulls (by decide) (by decide) hx (by decide)
    (fun h => absurd h (by decide)) 2 true
  have hexec : exec noDisplay (.ins 2 (bytesOf "x")) s = .ok (Xv6Editor.updateLineNumber s') := by
    rw [exec, hs]
    rfl
  have hnr : s'.nullReads = s.nullReads ++ [1] := hnr
  refine ⟨s, _, R, hexec, hnr, fun hf => ?_⟩
  have hsame : s'.nullReads = s.nullReads := hf.reads (Xv6Editor.updateLineNumber s') hexec
  simp [hsame] at hnr

end Xv6Editor
