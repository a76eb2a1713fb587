import Xv6Editor.Files.Save
import Xv6Editor.Runs.Capacity

/-!
# Unsaved work

* `History` : the runs of an editor whose system calls are all served, with the lines as they were
  when they were last loaded or saved.
* `lines_eq_of_history` : as long as `changed` is not set the text is that version of it, and
  `exit` ends the process only with such a text, with one that it has just saved, or after the
  answer `n`.
-/

namespace Xv6Editor

/-- `s` is at a prompt of a run with at most 255 lines in which every system call is served, and
`v` are the lines as they were at the last load or save. -/
inductive History (disp : Display) : State → List Line → Prop
  /-- The first prompt. -/
  | load {b : Boot} {reads : List (List UInt8)} {s : State} (ha : b.answers = [])
    (hc : ∀ bs, b.file = some bs → Cuts bs reads) (hm : main disp b reads = .ok s)
    (hk : s.lines.length ≤ 255) : History disp s s.lines
  /-- A round of the command loop. -/
  | step {s s' : State} {v : List Line} (h : History disp s v) (hs : Step disp s s')
    (hk : s'.lines.length ≤ 255) : History disp s' (if s.command = .save then s.lines else v)

/-- What is left of the input after `i` calls of `gets`. -/
def afterGets (i : ℕ) (st : List UInt8) : List UInt8 := (fun st => (gets st).2)^[i] st

/-- `st'` is left of `st` after some lines, the last of which is `n`. -/
def AnsweredNo (st st' : List UInt8) : Prop :=
  ∃ i, (cstr (gets (afterGets i st)).1).dropLast = bytesOf "n" ∧ st' = afterGets (i + 1) st

variable {disp : Display} {zt : Prop} {s s' : State} {d d' : Doc} {cmd : Command} {fuel : ℕ}
  {v : List Line}

/-! ### The flag `changed` -/

namespace Doc

/-- A command that leaves `changed` unset leaves the lines alone. -/
theorem Effect.changed_cases (E : d.Effect cmd d') :
    d'.changed = true ∨ d'.lines = d.lines ∧ (cmd = .save ∨ d'.changed = d.changed) := by
  cases E with
  | quiet => exact .inr ⟨rfl, .inr rfl⟩
  | save h => exact .inr ⟨rfl, .inl h⟩
  | insert | replace | rewrite | delete | init => exact .inl rfl

theorem Effect.answers_eq_nil (E : d.Effect cmd d') (ha : d.disk.answers = []) :
    d'.disk.answers = [] := by
  cases E with
  | save _ hk => exact Doc.answers_save hk ha
  | quiet | insert | replace | rewrite | delete | init => exact ha

end Doc

/-- What holds of the document at a prompt. -/
structure Doc.Tracks (d : Doc) (v : List Line) : Prop where
  wf : d.Wf
  length_le : d.lines.length ≤ 255
  served : d.disk.answers = []
  unchanged : d.changed = false → d.lines = v

theorem Boot.doc_tracks {b : Boot} {reads : List (List UInt8)} (ha : b.answers = [])
    (hk : (b.doc reads).lines.length ≤ 255) : (b.doc reads).Tracks (b.doc reads).lines where
  wf := ⟨b.doc_lines_ne reads, fun _ hr => nomatch hr⟩
  length_le := hk
  served := by
    unfold Boot.doc
    cases b.file <;> simp only [ha]
    rfl
  unchanged _ := rfl

theorem Doc.Tracks.step (T : d.Tracks v) (h : d.step = some d') (hk : d'.lines.length ≤ 255) :
    d'.Tracks (if d.command = .save then d.lines else v) := by
  -- the version moves only with `save`, and everything else that touches the lines sets `changed`
  obtain ⟨E, -⟩ := Doc.step_effect h
  refine ⟨T.wf.step T.length_le h, hk, E.answers_eq_nil T.served, fun hch => ?_⟩
  obtain hd | ⟨hl, hcmd⟩ := E.changed_cases
  · exact absurd (hd.symm.trans hch) (by decide)
  · split_ifs with hsave
    · exact hl
    · exact hl.trans (T.unchanged ((hcmd.resolve_left hsave).symm.trans hch))

theorem History.abs (h : History disp s v) : ∃ d, Abs False s d ∧ d.Tracks v := by
  induction h with
  | @load b reads s ha hc hm hk =>
    have A : Abs False s _ := .of_main False.elim hm
    rw [A.lines_eq] at hk ⊢
    exact ⟨_, A, Boot.doc_tracks ha hk⟩
  | step _ hs hk ih =>
    obtain ⟨d, A, T⟩ := ih
    obtain ⟨d', hd', A', -⟩ := A.step_of_ok T.wf T.length_le hs
    rw [A'.lines_eq] at hk
    rw [A.command_eq, A.lines_eq]
    exact ⟨d', A', T.step hd' hk⟩

/-! ### Leaving the editor -/

theorem Doc.askSave_of_unchanged (h : d.changed = false) (hd : d.askSave fuel = some d') :
    d' = d := by
  cases fuel with
  | zero => cases hd
  | succ fuel =>
    rw [Doc.askSave, h] at hd
    cases hd
    rfl

/-- The dialog of `com_exit` ends because there is nothing to save, after a save, or after the
answer `n`. -/
theorem Doc.askSave_cases (hd : d.askSave fuel = some d') :
    d.changed = false ∨ (∃ st, { d with stdin := st }.save = some d') ∨
      d'.disk = d.disk ∧ AnsweredNo d.stdin d'.stdin := by
  induction fuel generalizing d with
  | zero => cases hd
  | succ fuel ih =>
    rw [Doc.askSave] at hd
    cases hc : d.changed with
    | false => exact .inl rfl
    | true =>
      rw [hc, if_pos rfl] at hd
      obtain ⟨p, hp, hd⟩ := Option.bind_eq_some_iff.1 hd
      unfold Doc.getLine at hp
      split_ifs at hp
      cases hp
      split_ifs at hd with hy hn
      · -- after a successful save nothing is left to ask
        obtain ⟨d₁, hs, hd⟩ := Option.bind_eq_some_iff.1 hd
        have h₁ : d₁.changed = false := by
          unfold Doc.save at hs
          split_ifs at hs
          cases hs
          rfl
        rw [Doc.askSave_of_unchanged h₁ hd]
        exact .inr (.inl ⟨_, hs⟩)
      · cases hd
        exact .inr (.inr ⟨rfl, 0, hn, rfl⟩)
      · obtain h | ⟨st, h⟩ | ⟨hk, i, h, hst⟩ := ih hd
        · exact absurd (hc.symm.trans h) (by decide)
        · exact .inr (.inl ⟨st, h⟩)
        · exact .inr (.inr ⟨hk, i + 1, h, hst⟩)

theorem Mem.exit_cases (M : Mem zt s d) (h0 : d.lines ≠ []) (hk : d.lines.length ≤ 255)
    (ha : d.disk.answers = []) (h : Xv6Editor.comExit s = .error (.exited s')) :
    d.changed = false ∨ s'.disk.file = some (joinLines d.lines) ∨
      AnsweredNo d.stdin s'.stdin := by
  have hexit := M.comExit h0 hk
  cases hd : d.askSave (d.stdin.length + 1) with
  | none =>
    rw [hd] at hexit
    -- the input ended within the dialog: that is not an exit
    obtain ⟨e, he, -, hfault⟩ := hexit
    rw [hfault ha] at he
    cases h.symm.trans he
  | some d' =>
    rw [hd] at hexit
    obtain ⟨s'', hs, hdisk, hstdin⟩ := hexit
    cases h.symm.trans hs
    rw [hdisk, hstdin]
    refine (Doc.askSave_cases hd).imp_right (Or.imp ?_ And.right)
    rintro ⟨st, hsave⟩
    rw [Doc.save_eq (d := { d with stdin := st }) M.lines_short hk, ha,
      if_pos (show ([] : List Answer).tail.headD .done = .done from rfl)] at hsave
    cases hsave
    exact congrArg some (savedBytes_of_served ha d.lines)

/-- At every prompt where `changed` is not set the text is as it was last loaded or saved; and
`exit` ends the process only if it is, if it has just been saved, or if the user answered `n`. -/
theorem lines_eq_of_history (h : History disp s v) :
    (s.changed = false → s.lines = v) ∧
    (s.command = .exit → ∀ s', promptStep disp s = .error (.exited s') →
      s.lines = v ∨ s'.disk.file = some (joinLines s.lines) ∨
        AnsweredNo (gets s.stdin).2 s'.stdin) := by
  obtain ⟨d, A, T⟩ := h.abs
  rw [A.lines_eq, A.changed_eq, A.stdin_eq]
  refine ⟨T.unchanged, fun hcmd s' hs => ?_⟩
  have M : Mem False (State.print { s with stdin := (gets d.stdin).2 } _)
      { d with stdin := (gets d.stdin).2 } :=
    (A.toMem.withStdin _).print [.lit ">>> ", .sgr [1, 33], .sgr [0]]
  rw [promptStep_eq, ← State.command, hcmd, A.stdin_eq] at hs
  split_ifs at hs
  · cases hs
  exact (M.exit_cases T.wf.lines_ne T.length_le T.served hs).imp_left T.unchanged

/-- The state in which the process exits. -/
def exitState : Except Halt State → Option State
  | .error (.exited s) => some s
  | _ => none

theorem exitState_eq_some {r : Except Halt State} (h : exitState r = some s) :
    r = .error (.exited s) := by
  unfold exitState at h
  split at h <;> cases h
  rfl

theorem lines_eq_of_history_session : ∃ s s' v, v = [bytesOf "a"] ∧ s.lines = [bytesOf "b"] ∧
    (s.changed = false → s.lines = v) ∧
    promptStep showTextSyntaxHighlighting s = .error (.exited s') ∧
    (s.lines = v ∨ s'.disk.file = some (joinLines s.lines) ∨
      AnsweredNo (gets s.stdin).2 s'.stdin) := by
  obtain ⟨s₀, hm, h⟩ := exists_of_returns
    (r := main showTextSyntaxHighlighting
      (.session (some (bytesOf "a")) (bytesOf "mod-1 b\nexit\nn\n")) [bytesOf "a"])
    (p := fun s₀ => s₀.lines = [bytesOf "a"] ∧ s₀.command ≠ .save ∧
      returns (promptStep showTextSyntaxHighlighting s₀) fun s => s.lines = [bytesOf "b"] ∧
        s.command = .exit ∧ (exitState (promptStep showTextSyntaxHighlighting s)).isSome)
    (by decide +kernel)
  obtain ⟨hl₀, hcmd₀, h⟩ := of_decide_eq_true h
  obtain ⟨s, hs, h⟩ := exists_of_returns h
  obtain ⟨hl, hcmd, h⟩ := of_decide_eq_true h
  obtain ⟨s', hs'⟩ := Option.isSome_iff_exists.1 h
  have hexit := exitState_eq_some hs'
  have H : History showTextSyntaxHighlighting s [bytesOf "a"] := by
    have H₀ := History.load rfl (by rintro _ ⟨⟩; decide) hm (by rw [hl₀]; decide)
    have H := H₀.step hs (by rw [hl]; decide)
    rwa [if_neg hcmd₀, hl₀] at H
  obtain ⟨hunch, hleave⟩ := lines_eq_of_history H
  exact ⟨s, s', _, rfl, hl, hunch, hexit, hleave hcmd s' hexit⟩

end Xv6Editor
