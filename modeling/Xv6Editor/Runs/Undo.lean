import Xv6Editor.Runs.Invariant

/-!
# Undo of several edits

`textEditor` is the editor of `Undo/Bounded.lean` whose states are the lines, whose edits are the
`ins` and `mod` commands and whose records are the strings of `command_set`.  `exec` does what it
does, and `rb` undoes from its log, so that `Undo.Editor.undoN_run` gives

* `rb_edits` : after `m` edits, `r` times `rb` leads back to before the last `r` of them, for every
  `r` up to `m` and the size of the log.
-/

namespace Xv6Editor

/-- Commands, one after the other. -/
def execs (disp : Display) (cs : List Command) (s : State) : Except Halt State :=
  cs.foldlM (fun s c => exec disp c s) s

/-- An `ins` before a line or a `mod` of a line, with the content on the command line; the line
that is overwritten is not empty and fits into a record with any line number. -/
def EditOk (ls : List Line) : Command → Prop
  | .ins n c => (1 ≤ n ∧ n ≤ ls.length ∧ ls.length ≤ 254) ∧ c ≠ [] ∧ 0 ∉ c ∧ c.length < 256
  | .mod n c => (1 ≤ n ∧ n ≤ ls.length ∧ ls.length ≤ 255 ∧
      ∀ l, ls[(n - 1).toNat]? = some l → l ≠ [] ∧ l.length ≤ 247) ∧ c ≠ [] ∧ 0 ∉ c ∧ c.length < 256
  | _ => False

/-- Every command is such an edit when its turn comes. -/
def EditsOk : List Command → State → Prop
  | [], _ => True
  | c :: cs, s => EditOk s.lines c ∧ ∀ s', exec noDisplay c s = .ok s' → EditsOk cs s'

variable {s : State} {d d' : Doc} {c : Command} {cs : List Command} {ls ls' log : List Line}
  {r : Line}

/-! ### Edits on lists of lines -/

/-- What an edit makes of the lines. -/
def editLines : Command → List Line → List Line
  | .ins n c, ls => insLines ls (n - 1).toNat c
  | .mod n c, ls => ls.set (n - 1).toNat c
  | _, ls => ls

/-- What is recorded for an edit. -/
def editRecord : Command → List Line → Line
  | .ins n _, ls => undoRecord "ins-" ((n - 1).toNat + 1 : ℕ) (ls[(n - 1).toNat]?.getD [])
  | .mod n _, ls => undoRecord "mod-" ((n - 1).toNat + 1 : ℕ) (ls[(n - 1).toNat]?.getD [])
  | _, _ => []

/-- What undoing from a record makes of the lines. -/
def revertLines (r : Line) (ls : List Line) : Option (List Line) :=
  match decode r with
  | .remove n => if n ≤ 0 ∨ n > ls.length then none else some (delLines ls (n - 1).toNat)
  | .rewrite n c =>
    if n ≤ 0 ∨ n > ls.length ∨ c = [] then none else some (ls.set (n - 1).toNat c)
  | .nothing => none

theorem delLines_insLines {m : ℕ} (hm : m ≤ ls.length) (h0 : ls ≠ []) (hpos : insPos ls m = m)
    (c : Line) : delLines (insLines ls m c) m = ls := by
  have hlen := Doc.length_insLines hm c
  have := List.length_pos_of_ne_nil h0
  rw [delLines, if_neg (by omega), insLines, hpos, List.eraseIdx_insertIdx_self]

theorem recordContent_eq_self {n : ℕ} {l : Line} (hn : n ≤ 256) (h0 : 0 ∉ l)
    (hlen : l.length ≤ 247) : recordContent n l = l := by
  have hd : (number2string n).length ≤ 3 := length_number2string_le (by omega) (by omega)
  rw [recordContent, if_pos (by omega), cstr_eq_self h0]

theorem revertLines_remove {m : ℕ} (h : decode r = .remove (m + 1 : ℕ)) (hm : m < ls.length) :
    revertLines r ls = some (delLines ls m) := by
  simp only [revertLines, h]
  rw [if_neg (by omega), Nat.cast_add_one, add_sub_cancel_right, Int.toNat_natCast]

theorem revertLines_rewrite {m : ℕ} {c : Line} (h : decode r = .rewrite (m + 1 : ℕ) c)
    (hm : m < ls.length) (hc : c ≠ []) : revertLines r ls = some (ls.set m c) := by
  simp only [revertLines, h]
  rw [if_neg (by simp [hc]; omega), Nat.cast_add_one, add_sub_cancel_right, Int.toNat_natCast]

/-- The record of an edit undoes it. -/
theorem revertLines_editRecord (hc : EditOk ls c) (h0 : ∀ l ∈ ls, 0 ∉ l) :
    revertLines (editRecord c ls) (editLines c ls) = some ls := by
  cases c with
  | ins n c =>
    obtain ⟨⟨h1, hn, hk⟩, -⟩ := hc
    have hm : (n - 1).toNat < ls.length := by omega
    have hlen := Doc.length_insLines hm.le c
    have hdec := decode_undoRecord_ins (n := (n - 1).toNat + 1) (by omega)
      (ls[(n - 1).toNat]?.getD [])
    exact (revertLines_remove hdec (by simp only [editLines]; omega)).trans
      (congrArg some (delLines_insLines hm.le (List.ne_nil_of_length_pos (by omega))
        (if_neg fun h => hm.ne h.1) c))
  | mod n c =>
    obtain ⟨⟨h1, hn, hk, hl⟩, -⟩ := hc
    have hm : (n - 1).toNat < ls.length := by omega
    have hget := List.getElem?_eq_getElem hm
    obtain ⟨hne, hlen⟩ := hl _ hget
    have hdec := decode_undoRecord_mod (n := (n - 1).toNat + 1) (by omega) ls[(n - 1).toNat]
    rw [recordContent_eq_self (by omega) (h0 _ (List.getElem_mem hm)) hlen] at hdec
    simp only [editRecord, editLines, hget, Option.getD_some]
    rw [revertLines_rewrite hdec (by rwa [List.length_set]) hne, List.set_set,
      List.set_getElem_self]
  | _ => exact hc.elim

theorem isRecord_editRecord (hc : EditOk ls c) : IsRecord (editRecord c ls) := by
  cases c with
  | ins n c =>
    obtain ⟨⟨h1, hn, hk⟩, -⟩ := hc
    exact isRecord_ins (by omega) _
  | mod n c =>
    obtain ⟨⟨h1, hn, hk, -⟩, -⟩ := hc
    exact isRecord_mod (by omega) _
  | _ => exact hc.elim

open Classical in
/-- The edits on lists of lines, with their records. -/
noncomputable def textEditor : Undo.Editor (List Line) Command Line where
  Valid c ls := EditOk ls c ∧ ∀ l ∈ ls, 0 ∉ l
  apply := editLines
  record := editRecord
  revert r ls := if IsRecord r then revertLines r ls else none
  revert_record c ls h := by
    rw [if_pos (isRecord_editRecord h.1), revertLines_editRecord h.1 h.2]

/-! ### Edits and undo on documents -/

theorem EditOk.fits (hc : EditOk ls c) : c.Fits := by
  cases c with
  | ins | mod => exact hc.2.2
  | _ => exact hc.elim

theorem Doc.exec_edit (hc : EditOk d.lines c) :
    d.exec c = some { d with
      lines := editLines c d.lines
      changed := true
      log := Undo.push 20 d.log (editRecord c d.lines) } := by
  cases c with
  | ins n c =>
    obtain ⟨⟨h1, hn, hk⟩, hne, -⟩ := hc
    have hm : (n - 1).toNat < d.lines.length := by omega
    have hu : ¬d.Unrecorded (n - 1).toNat := fun h => hm.ne h.1
    simp only [Doc.exec, Doc.ins, Doc.readContent, Doc.insert]
    rw [if_neg (by omega), if_neg hne, Option.map_some, if_neg hu, List.getElem?_eq_getElem hm]
    simp only [editLines, editRecord, List.getElem?_eq_getElem hm, Option.getD_some]
  | mod n c =>
    obtain ⟨⟨h1, hn, hk, -⟩, hne, -⟩ := hc
    have hm : (n - 1).toNat < d.lines.length := by omega
    simp only [Doc.exec, Doc.mod, Doc.readContent, Doc.replace]
    rw [if_neg (by omega), if_neg hne, Option.map_some, if_pos trivial,
      List.getElem?_eq_getElem hm]
    simp only [editLines, editRecord, List.getElem?_eq_getElem hm, Option.getD_some]
  | _ => exact hc.elim

/-- Undoing on lists of lines is what `rb` does. -/
theorem Doc.rollback_undo {p : List Line × List Line}
    (h : textEditor.undo (d.lines, d.log) = some p) :
    (∀ r, d.log.getLast? = some r → IsRecord r) ∧ p.1.length ≤ d.lines.length ∧
      d.rollback = some { d with lines := p.1, log := p.2, changed := true } := by
  obtain ⟨r, hr, h⟩ := Option.bind_eq_some_iff.1 h
  obtain ⟨ls, hls, rfl⟩ := Option.map_eq_some_iff.1 h
  simp only [textEditor] at hr hls
  split_ifs at hls with hrec
  refine ⟨fun r' hr' => by cases hr.symm.trans hr'; exact hrec, ?_⟩
  simp only [revertLines] at hls
  simp only [Doc.rollback, hr]
  cases hdec : decode r with
  | remove n =>
    simp only [hdec] at hls ⊢
    split_ifs at hls with hn
    cases hls
    have hm : (n - 1).toNat < d.lines.length := by omega
    refine ⟨?_, by rw [Doc.del, if_neg hn]⟩
    rw [Doc.length_delLines hm]
    split <;> omega
  | rewrite n c =>
    simp only [hdec] at hls ⊢
    split_ifs at hls with hn
    cases hls
    rw [not_or, not_or] at hn
    refine ⟨by simp, ?_⟩
    rw [Doc.mod, if_neg (by simp only; omega), Doc.readContent, if_neg hn.2.2]
    rfl
  | nothing =>
    simp only [hdec] at hls
    cases hls

/-! ### Edits and undo in memory -/

theorem execs_cons (disp : Display) (c : Command) (cs : List Command) (s : State) :
    execs disp (c :: cs) s = exec disp c s >>= execs disp cs := rfl

/-- Without a display a command returns, and memory holds what it makes of the document. -/
theorem Abs.exec_ok (A : Abs False s d) (h0 : d.lines ≠ []) (hk : d.lines.length ≤ 255)
    (hc : c.Fits) (hr : c = .rb → ∀ r, d.log.getLast? = some r → IsRecord r)
    (hd : d.exec c = some d') : ∃ s', Xv6Editor.exec noDisplay c s = .ok s' ∧ Abs False s' d' := by
  have hR := A.exec noDisplay h0 hk hc hr
  rw [hd] at hR
  obtain ⟨s', hs, A'⟩ := hR.exists_ok
  exact ⟨s', hs, A'.mono False.elim⟩

theorem EditOk.length_editLines (hc : EditOk ls c) :
    (editLines c ls).length ≤ 255 ∧ editLines c ls ≠ [] := by
  rw [← List.length_pos_iff]
  cases c with
  | ins n c =>
    obtain ⟨⟨h1, hn, hk⟩, -⟩ := hc
    rw [editLines, Doc.length_insLines (by omega)]
    omega
  | mod n c =>
    obtain ⟨⟨h1, hn, hk, -⟩, -⟩ := hc
    rw [editLines, List.length_set]
    omega
  | _ => exact hc.elim

theorem EditsOk.take (h : EditsOk cs s) (j : ℕ) : EditsOk (cs.take j) s := by
  induction cs generalizing s j with
  | nil => simpa using h
  | cons c cs ih =>
    cases j with
    | zero => trivial
    | succ j => exact ⟨h.1, fun s' hs => ih (h.2 s' hs) j⟩

/-- The edits run, and do to the document what `textEditor` does. -/
theorem Abs.execs_edits (A : Abs False s d) (h0 : d.lines ≠ []) (hk : d.lines.length ≤ 255)
    (h : EditsOk cs s) :
    textEditor.ValidRun cs d.lines ∧ ∃ s' d', execs noDisplay cs s = .ok s' ∧ Abs False s' d' ∧
      (d'.lines, d'.log) = textEditor.run 20 cs (d.lines, d.log) ∧ d'.lines.length ≤ 255 := by
  induction cs generalizing s d with
  | nil => exact ⟨trivial, s, d, rfl, A, rfl, hk⟩
  | cons c cs ih =>
    obtain ⟨hc, hcs⟩ := h
    rw [A.lines_eq] at hc
    obtain ⟨s₁, hs₁, A₁⟩ := A.exec_ok h0 hk hc.fits (by rintro rfl; exact hc.elim)
      (Doc.exec_edit hc)
    obtain ⟨hlen, hne⟩ := hc.length_editLines
    obtain ⟨hv, s', d', hs', A', hrun, hk'⟩ := ih A₁ hne hlen (hcs s₁ hs₁)
    have hz : ∀ l ∈ d.lines, 0 ∉ l := fun l hl => by
      obtain ⟨ps, qs, H⟩ := A.rep
      exact (H.line_spec hl).1
    refine ⟨⟨⟨hc, hz⟩, hv⟩, s', d', ?_, A', hrun, hk'⟩
    rw [execs_cons, hs₁]
    exact hs'

theorem Abs.execs_rb (A : Abs False s d) (hk : d.lines.length ≤ 255) {n : ℕ}
    {p : List Line × List Line} (h : textEditor.undoN n (d.lines, d.log) = some p) :
    ∃ s' d', execs noDisplay (List.replicate n .rb) s = .ok s' ∧ Abs False s' d' ∧
      (d'.lines, d'.log) = p ∧ d'.stdin = d.stdin := by
  induction n generalizing s d with
  | zero =>
    cases h
    exact ⟨s, d, rfl, A, rfl, rfl⟩
  | succ n ih =>
    obtain ⟨p₁, hu, h⟩ := Option.bind_eq_some_iff.1 h
    obtain ⟨hr, hlen, hd⟩ := Doc.rollback_undo hu
    have hR : Reaches noDisplay False d.rollback (Xv6Editor.exec noDisplay .rb s) :=
      A.comRollback hk hr
    rw [hd] at hR
    obtain ⟨s₁, hs₁, A₁⟩ := hR.exists_ok
    obtain ⟨s', d', hs', A', hp, hst⟩ := ih A₁ (hlen.trans hk) h
    refine ⟨s', d', ?_, A', hp, hst⟩
    rw [List.replicate_succ, execs_cons, hs₁]
    exact hs'

/-- Take any state with the invariant, whatever is in its undo log, and `m` edits.  Then `r` times
`rb`, for any `r` up to `m` and 20, leaves the lines as they were before the last `r` edits, and
reads nothing from the input. -/
theorem rb_edits {k r : ℕ} (R : RepInv s k) (h : EditsOk cs s) (hr : r ≤ min cs.length 20) :
    ∃ s₁ s₂ s₃, execs noDisplay (cs.take (cs.length - r)) s = .ok s₁ ∧
      execs noDisplay cs s = .ok s₂ ∧ execs noDisplay (List.replicate r .rb) s₂ = .ok s₃ ∧
      s₃.lines = s₁.lines ∧ s₃.stdin = s₂.stdin := by
  obtain ⟨d, A, rfl⟩ := R.abs
  have h0 : d.lines ≠ [] := List.ne_nil_of_length_pos R.one_le
  obtain ⟨-, s₁, d₁, hs₁, A₁, hd₁, -⟩ := A.execs_edits h0 R.le (h.take (cs.length - r))
  obtain ⟨hv, s₂, d₂, hs₂, A₂, hd₂, hk₂⟩ := A.execs_edits h0 R.le h
  obtain ⟨log, hu⟩ := Undo.Editor.undoN_run (p := (d.lines, d.log)) hv hr
  rw [← hd₁, ← hd₂] at hu
  obtain ⟨s₃, d₃, hs₃, A₃, hd₃, hst⟩ := A₂.execs_rb hk₂ hu
  refine ⟨s₁, s₂, s₃, hs₁, hs₂, hs₃, ?_, ?_⟩
  · rw [A₃.lines_eq, A₁.lines_eq]
    exact congrArg Prod.fst hd₃
  · rw [A₃.stdin_eq, A₂.stdin_eq, hst]

theorem rb_edits_session : ∃ s s₂ s₃, s.lines = [bytesOf "a"] ∧
    execs noDisplay [.ins 1 (bytesOf "b"), .mod 2 (bytesOf "c")] s = .ok s₂ ∧
    execs noDisplay [.rb, .rb] s₂ = .ok s₃ ∧ s₃.lines = [bytesOf "a"] := by
  obtain ⟨s, A⟩ := exists_session False (bytesOf "a") [] False.elim
  have hl : s.lines = [bytesOf "a"] := A.lines_eq.trans (by decide)
  have hins : EditOk [bytesOf "a"] (.ins 1 (bytesOf "b")) := ⟨by decide, by decide⟩
  obtain ⟨s₁, hs₁, A₁⟩ := A.exec_ok (by decide) (by decide) hins.fits nofun (Doc.exec_edit hins)
  have hl₁ : s₁.lines = [bytesOf "b", bytesOf "a"] := A₁.lines_eq.trans (by decide)
  have hmod : EditOk [bytesOf "b", bytesOf "a"] (.mod 2 (bytesOf "c")) :=
    ⟨⟨by decide, by decide, by decide, by rintro _ ⟨⟩; decide⟩, by decide⟩
  have h : EditsOk [.ins 1 (bytesOf "b"), .mod 2 (bytesOf "c")] s := by
    refine ⟨hl ▸ hins, fun s' hs' => ?_⟩
    cases hs'.symm.trans hs₁
    exact ⟨hl₁ ▸ hmod, fun _ _ => trivial⟩
  obtain ⟨s₀, s₂, s₃, h₀, h₂, h₃, hlines, -⟩ :=
    rb_edits (r := 2) (A.repInv (by decide) (by decide)) h (by decide)
  cases h₀
  exact ⟨s, s₂, s₃, hl, h₂, h₃, hlines.trans hl⟩

end Xv6Editor
