import Xv6Editor.Files.Unsaved
import Xv6Editor.Input.End

/-!
# Whole sessions

The editor from its start to its end against the editor on a list of lines.  `session` is the
program: `main` with its command loop.  Every round reads something, so that the loop needs no more
rounds than there are bytes in the input.  `Doc.session` is the same on documents, and `Ending` says
how a session can end: by `exit`, with some file on the disk, or because the input is at its end
where a line is read.

* `Abs.promptStep_ending` : the last round of the code ends as that of the document does.
* `session_agrees` : the whole program does, if no text on the way fills the array and each can be
  displayed.
-/

namespace Xv6Editor

/-! ### The program -/

/-- At most `n` rounds of the command loop. -/
def rounds (disp : Display) : ℕ → State → Except Halt State
  | 0, s => .ok s
  | n + 1, s => do rounds disp n (← promptStep disp s)

/-- The program from its start to its end. -/
def session (disp : Display) (b : Boot) (reads : List (List UInt8)) : Except Halt State := do
  let s ← main disp b reads
  rounds disp (s.stdin.length + 1) s

/-! ### The editor on a list of lines -/

/-- How a session ends. -/
inductive Ending
  /-- By `exit()`, with this file on the disk. -/
  | exits (disk : Disk)
  /-- A line is read at the end of the input. -/
  | endOfInput
  deriving DecidableEq

namespace Doc

/-- How the round ends that does not come back to the prompt, with a kernel that serves every
call. -/
def ending (d : Doc) : Ending :=
  if cstr (pad 256 (gets d.stdin).1) = [] then .endOfInput
  else if d.command = .exit then
    (({ d with stdin := (gets d.stdin).2 }.askSave ((gets d.stdin).2.length + 1)).map
      fun d' : Doc => Ending.exits d'.disk).getD .endOfInput
  else .endOfInput

/-- At most `n` rounds. -/
def rounds : ℕ → Doc → Ending
  | 0, _ => .endOfInput
  | n + 1, d => (d.step.map (rounds n)).getD d.ending

/-- A session that starts at the prompt with this document. -/
def session (d : Doc) : Ending := d.rounds (d.stdin.length + 1)

/-- `P` holds of the documents at the prompts of the next `n` rounds. -/
def AtPrompts (P : Doc → Prop) : ℕ → Doc → Prop
  | 0, _ => True
  | n + 1, d => P d ∧ ∀ d', d.step = some d' → d'.AtPrompts P n

/-- The text does not fill the array, and the display of it comes to an end. -/
def Showable (disp : Display) (d : Doc) : Prop := d.lines.length ≤ 255 ∧ Shows disp d

end Doc

/-- The code ends as the session on the document does. -/
def Ending.Agrees : Ending → Except Halt State → Prop
  | .exits k, r => ∃ s, r = .error (.exited s) ∧ s.disk = k
  | .endOfInput, r => r = fail (.inputIndex (-1))

variable {disp : Display} {zt : Prop} {s s' : State} {d d' : Doc} {n : ℕ} {c : Command}
  {r : Except Halt State}

/-! ### The last round -/

theorem Computes.eq_of_none {ln : ℤ} {o : Option Doc} (h : Computes disp zt ln o r)
    (ho : o = none) : r = fail (.inputIndex (-1)) := by
  subst ho
  exact h

/-- An `rb` that does not come back asks for the content of a line. -/
theorem Abs.comRollback_none (A : Abs zt s d) (W : d.Wf) (hd : d.rollback = none) :
    Xv6Editor.comRollback disp s = fail (.inputIndex (-1)) := by
  unfold Doc.rollback at hd
  cases hlast : d.log.getLast? with
  | none =>
    rw [hlast] at hd
    cases hd
  | some r =>
    rw [hlast] at hd
    obtain ⟨s', M, he⟩ := A.comRollback_eq disp (W.newest r hlast) hlast
    rw [he]
    obtain ⟨op, hop, k, c, -, hk', rfl⟩ := W.newest r hlast
    simp only [List.mem_cons, List.not_mem_nil, or_false] at hop
    obtain rfl | rfl := hop
    · simp only [decode_undoRecord_ins hk'] at hd
      cases hd
    · have hlen := recordContent_length hk' c
      have hmod : Computes disp _ _ _ _ :=
        M.comMod (zero_notMem_recordContent k c) (by omega) k false
      simp only [decode_undoRecord_mod hk'] at hd ⊢
      rw [hmod.eq_of_none hd]
      rfl

/-- A command other than `exit` comes back, unless it asks for a content at the end of the input. -/
theorem Abs.exec_none (A : Abs zt s d) (W : d.Wf) (hk : d.lines.length ≤ 255) (hc : c.Fits)
    (ha : d.disk.answers = []) (hne : c ≠ .exit) (hd : d.exec c = none) :
    Xv6Editor.exec disp c s = fail (.inputIndex (-1)) := by
  cases c with
  | ins n extra =>
    have hins : comIns disp s n extra true = _ :=
      (A.comIns W.lines_ne hk hc.1 hc.2 n).eq_of_none hd
    rw [Xv6Editor.exec, hins]
    rfl
  | mod n extra => exact (A.comMod hc.1 hc.2 n true).eq_of_none hd
  | rb => exact A.comRollback_none W hd
  | save =>
    obtain ⟨d', hd', -⟩ := d.save_served ha
    cases hd.symm.trans hd'
  | exit => exact absurd rfl hne
  | del | «show» | hide | help | demo | init | disp | normaldisp | invalid => cases hd

/-- The last round of the code ends as that of the document does. -/
theorem Abs.promptStep_ending (A : Abs zt s d) (W : d.Wf) (hk : d.lines.length ≤ 255)
    (ha : d.disk.answers = []) (hd : d.step = none) :
    d.ending.Agrees (Xv6Editor.promptStep disp s) := by
  have hcmd : d.command = parse s.lineNumber (inputBuffer (gets s.stdin).1) := by
    rw [Doc.command, A.stdin_eq, A.lineNumber_eq]
  have A₁ : Abs zt (State.print { s with stdin := (gets d.stdin).2 } _)
      { d with stdin := (gets d.stdin).2 } :=
    { (A.toMem.withStdin _).print [.lit ">>> ", .sgr [1, 33], .sgr [0]] with
      lineNumber_eq := A.lineNumber_eq }
  rw [promptStep_eq, ← hcmd, A.stdin_eq, Doc.ending]
  rw [Doc.step] at hd
  split_ifs at hd ⊢ with hg hexit
  · exact rfl
  · -- the dialog ends with an answer, or with the input
    rw [hexit]
    have hleave := A₁.comExit W.lines_ne hk
    cases hask : Doc.askSave _ { d with stdin := (gets d.stdin).2 } with
    | none =>
      rw [hask] at hleave
      obtain ⟨e, he, -, hfault⟩ := hleave
      rw [hfault ha] at he
      exact he
    | some d' =>
      rw [hask] at hleave
      obtain ⟨s', hs, hdisk, -⟩ := hleave
      exact ⟨s', hs, hdisk⟩
  · exact A₁.exec_none ⟨W.lines_ne, W.records⟩ hk d.command_fits ha hexit hd

/-! ### Rounds -/

theorem Doc.Effect.stdin_suffix (E : d.Effect c d') : d'.stdin <:+ d.stdin := by
  cases E with
  | quiet hs _ | insert _ hs _ _ | replace hs _ _ | rewrite hs _ _ _ => exact hs
  | delete | init | save => exact List.suffix_refl _

theorem Doc.step_answers (h : d.step = some d') (ha : d.disk.answers = []) :
    d'.disk.answers = [] :=
  (Doc.step_effect h).1.answers_eq_nil ha

/-- A round that comes back has read something. -/
theorem Doc.step_stdin_lt (h : d.step = some d') : d'.stdin.length < d.stdin.length := by
  obtain ⟨E, hne⟩ := Doc.step_effect h
  have hle : d'.stdin.length ≤ (gets d.stdin).2.length := E.stdin_suffix.length_le
  have hlen := congrArg List.length (gets_append d.stdin)
  rw [List.length_append] at hlen
  have := List.length_pos_of_ne_nil hne
  omega

/-- Every run comes to an end, in the way of the document. -/
theorem Abs.rounds_agrees (A : Abs False s d) (W : d.Wf) (ha : d.disk.answers = [])
    (hp : d.AtPrompts (Doc.Showable disp) n) (hn : d.stdin.length < n) :
    (d.rounds n).Agrees (rounds disp n s) := by
  induction n generalizing s d with
  | zero => exact absurd hn (Nat.not_lt_zero _)
  | succ n ih =>
    obtain ⟨⟨hk, -⟩, hnext⟩ := hp
    rw [Doc.rounds, Xv6Editor.rounds]
    cases hd : d.step with
    | none =>
      have hend : d.ending.Agrees (Xv6Editor.promptStep disp s) :=
        A.promptStep_ending W hk ha hd
      change d.ending.Agrees _
      cases he : d.ending with
      | exits k =>
        rw [he] at hend
        obtain ⟨s', hs, hdisk⟩ := hend
        rw [hs]
        exact ⟨s', rfl, hdisk⟩
      | endOfInput =>
        rw [he] at hend
        rw [show Xv6Editor.promptStep disp s = _ from hend]
        rfl
    | some d' =>
      -- a byte was left to read, so that there is another round to come
      have hlt := Doc.step_stdin_lt hd
      obtain ⟨m, rfl⟩ := Nat.exists_eq_succ_of_ne_zero (show n ≠ 0 by omega)
      obtain ⟨s', hs, A', W'⟩ := A.step_shown W hk hd (hnext d' hd).1.2
      rw [show Xv6Editor.promptStep disp s = _ from hs]
      exact ih A' W' (Doc.step_answers hd ha) (hnext d' hd) (by omega)

/-- The program ends as the session on the document does. -/
theorem session_agrees (b : Boot) (reads : List (List UInt8)) (ha : b.answers = [])
    (hp : (b.doc reads).AtPrompts (Doc.Showable disp) (b.stdin.length + 1)) :
    (b.doc reads).session.Agrees (session disp b reads) := by
  obtain ⟨s, hm, A⟩ := main_shown disp b reads ha hp.1.2
  have hdisk := (b.doc_tracks ha hp.1.1).served
  rw [session, hm]
  change Ending.Agrees _ (rounds disp (s.stdin.length + 1) s)
  rw [A.stdin_eq]
  exact A.rounds_agrees (b.doc_wf reads) hdisk hp (Nat.lt_succ_self _)

theorem Doc.AtPrompts.next {P : Doc → Prop} (hd : d.step = some d') (h : P d)
    (h' : d'.AtPrompts P n) : d.AtPrompts P (n + 1) := by
  refine ⟨h, fun d₁ h₁ => ?_⟩
  cases hd.symm.trans h₁
  exact h'

theorem Doc.AtPrompts.last {P : Doc → Prop} (hd : d.step = none) (h : P d) :
    d.AtPrompts P (n + 1) := by
  refine ⟨h, fun d₁ h₁ => ?_⟩
  cases hd.symm.trans h₁

theorem session_agrees_insert_save : ∃ s,
    session showTextSyntaxHighlighting
      (.session (some (bytesOf "a")) (bytesOf "ins-1 b\nsave\nexit\n")) [bytesOf "a"] =
        .error (.exited s) ∧ s.disk = ⟨some (bytesOf "b\na"), []⟩ := by
  have hshow : ∀ d : Doc, d.lines.length ≤ 255 ∧ (∀ l ∈ d.lines, QuotesClosed l) →
      d.Showable showTextSyntaxHighlighting :=
    fun d h => ⟨h.1, shows_highlighting h.1 h.2⟩
  have h := session_agrees
    (.session (some (bytesOf "a")) (bytesOf "ins-1 b\nsave\nexit\n")) [bytesOf "a"] rfl
    (.next rfl (hshow _ (by decide)) (.next rfl (hshow _ (by decide))
      (.last rfl (hshow _ (by decide)))))
  exact h

end Xv6Editor
