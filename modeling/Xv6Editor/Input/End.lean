import Xv6Editor.Input.Lines
import Xv6Editor.Runs.Capacity
import Xv6Editor.Runs.Held

/-!
# The end of the input

At the end of the input `gets` delivers an empty string.  The code then cuts off its last byte all
the same, and so writes to `input[-1]`.  It does so in the command loop, where it asks for a content
and where `com_exit` asks for an answer, so the input has to go on at each of these places.

* `RoundFed` : it goes on at every read of a round.
* `inputIndex_iff` : this is the exact condition for a round to stay inside its input buffers, and
  there are no more rounds than bytes in the input.
-/

namespace Xv6Editor

/-- A read from `st` delivers a string that is not empty. -/
def LineReady (st : List UInt8) : Prop := ∃ c ∈ st.head?, c ≠ 0

/-- The next line answers the question of `com_exit`. -/
def IsAnswer (st : List UInt8) : Prop :=
  (cstr (gets st).1).dropLast = bytesOf "y" ∨ (cstr (gets st).1).dropLast = bytesOf "n"

/-- One of the next lines is an answer, and the reads up to it deliver something. -/
inductive Answered : List UInt8 → Prop
  | now {st : List UInt8} (hr : LineReady st) (ha : IsAnswer st) : Answered st
  | later {st : List UInt8} (hr : LineReady st) (h : Answered (gets st).2) : Answered st

/-- The command asks for a content: it is an `ins` or `mod` without one, or an `rb` of a `mod` whose
record has none. -/
def State.Asks (s : State) : Command → Prop
  | .ins n extra => extra = [] ∧ 1 ≤ n ∧ n ≤ s.lines.length + 1
  | .mod n extra => extra = [] ∧ 1 ≤ n ∧ n ≤ s.lines.length
  | .rb => ∃ r n, s.log.getLast? = some r ∧ decode r = .rewrite n [] ∧ 1 ≤ n ∧ n ≤ s.lines.length
  | _ => False

/-- All the reads of the round at the prompt `s` deliver something. -/
structure RoundFed (s : State) : Prop where
  command : LineReady s.stdin
  content : s.Asks s.command → LineReady (gets s.stdin).2
  answer : s.command = .exit → s.changed = true → Answered (gets s.stdin).2

/-- An error that is not a write outside of an input buffer. -/
def Halt.InInput (e : Halt) : Prop := ∀ i, e ≠ .fault (.inputIndex i)

variable {disp : Display} {s s' : State} {st : List UInt8} {n : ℤ} {r extra : Line} {fuel : ℕ}
  {flag : Bool} {c : Command}

/-! ### One read -/

theorem lineReady_iff : LineReady st ↔ cstr (gets st).1 ≠ [] := by
  cases st with
  | nil => exact ⟨fun ⟨_, h, _⟩ => (nomatch h), fun h => absurd rfl h⟩
  | cons c st =>
    have hg : ∃ t, (gets (c :: st)).1 = c :: t := by
      rw [gets, getsFrom]
      split_ifs
      · exact ⟨_, rfl⟩
      · exact ⟨_, rfl⟩
    obtain ⟨t, ht⟩ := hg
    rw [ht]
    by_cases hc : c = 0
    · simp [LineReady, cstr, hc]
    · simp [LineReady, cstr, hc]

theorem length_gets_lt (h : LineReady st) : (gets st).2.length < st.length := by
  have hne : (gets st).1 ≠ [] := by
    intro h0
    rw [lineReady_iff, h0] at h
    exact h rfl
  have hlen := congrArg List.length (gets_append st)
  rw [List.length_append] at hlen
  have := List.length_pos_of_ne_nil hne
  omega

theorem getLine_ready (h : LineReady s.stdin) (out : List Piece) :
    getLine (s.print out) = .ok ((cstr (gets s.stdin).1).dropLast,
      { s with stdin := (gets s.stdin).2, console := s.console ++ out }) := by
  have hst : (s.print out).stdin = s.stdin := rfl
  rw [getLine_eq, hst, if_neg (lineReady_iff.1 h)]
  rfl

theorem getLine_end (h : ¬LineReady s.stdin) (out : List Piece) :
    getLine (s.print out) = fail (.inputIndex (-1)) := by
  have hst : (s.print out).stdin = s.stdin := rfl
  rw [lineReady_iff, not_not] at h
  rw [getLine_eq, hst, if_pos h]

theorem Mem.readContent_ready {zt : Prop} {d : Doc} (M : Mem zt s d) (h0 : 0 ∉ extra)
    (hlen : extra.length < 256) (hr : extra = [] → LineReady s.stdin) :
    ∃ c st out, Xv6Editor.readContent s extra = .ok (c, { s with stdin := st, console := out }) ∧
      0 ∉ c ∧ c.length < 256 := by
  obtain ⟨-, hfail⟩ | ⟨c, st, out, -, h⟩ := M.readContent h0 hlen
  · unfold Xv6Editor.readContent at hfail
    split_ifs at hfail with he
    · rw [getLine_ready (hr he)] at hfail
      cases hfail
    · cases hfail
  · exact ⟨c, st, out, h⟩

theorem readContent_inInput (h : extra = [] → LineReady s.stdin) :
    EnsuresOr (fun _ => True) Halt.InInput (readContent s extra) := by
  refine .ite (fun he => ?_) fun _ => .ok trivial
  rw [getLine_ready (h he)]
  exact .ok trivial

theorem readContent_end (h : ¬LineReady s.stdin) : readContent s [] = fail (.inputIndex (-1)) := by
  rw [readContent, if_pos rfl]
  exact getLine_end h _

/-! ### Behind the end of the input -/

/-- Where the next line is missing, the code stores its terminator at `input[-1]` and goes on with
the empty string that `gets` has left.  A line with nothing in front of its newline has the same
effect, without the store. -/
def State.goOn (s : State) : State :=
  if cstr (gets s.stdin).1 = [] then { s with stdin := '\n'.toUInt8 :: (gets s.stdin).2 } else s

theorem State.goOn_of_ready (h : LineReady s.stdin) : s.goOn = s := if_neg (lineReady_iff.1 h)

theorem State.exists_goOn (s : State) : ∃ st, s.goOn = { s with stdin := st } ∧ LineReady st := by
  by_cases h : LineReady s.stdin
  · exact ⟨s.stdin, s.goOn_of_ready h, h⟩
  · refine ⟨_, if_pos ?_, '\n'.toUInt8, rfl, by decide⟩
    rwa [lineReady_iff, not_not] at h

/-- There is always a line to read, and it is what `gets` has left in the buffer. -/
theorem getLine_goOn (s : State) :
    getLine s.goOn = .ok ((cstr (gets s.stdin).1).dropLast,
      { s with stdin := (gets s.stdin).2 }) := by
  by_cases h : cstr (gets s.stdin).1 = []
  · have hg : gets ('\n'.toUInt8 :: (gets s.stdin).2) = (['\n'.toUInt8], (gets s.stdin).2) := rfl
    rw [State.goOn, if_pos h, getLine_eq, h]
    simp only [hg]
    rfl
  · rw [State.goOn, if_neg h, getLine_eq, if_neg h]

theorem Mem.goOn {zt : Prop} {d : Doc} (M : Mem zt s d) :
    ∃ d', Mem zt s.goOn d' ∧ d'.lines = d.lines ∧ d'.log = d.log ∧ LineReady s.goOn.stdin ∧
      s.goOn.nullReads = s.nullReads := by
  obtain ⟨st, hs, hr⟩ := s.exists_goOn
  rw [hs]
  exact ⟨_, M.withStdin st, rfl, rfl, hr, rfl⟩

/-! ### At the end of the input -/

theorem Held.getLineNumber_eq (h : Held s) : getLineNumber s.text = s.lines.length - 1 := by
  obtain ⟨d, M, -⟩ := h
  obtain ⟨ps, qs, H⟩ := M.rep
  rw [H.getLineNumber_eq, M.lines_eq]

theorem Held.comIns_end (h : Held s) (hn : 1 ≤ n ∧ n ≤ s.lines.length + 1)
    (hst : ¬LineReady s.stdin) : Xv6Editor.comIns disp s n [] flag = fail (.inputIndex (-1)) := by
  have hg := h.getLineNumber_eq
  rw [Xv6Editor.comIns, if_neg (by omega), readContent_end hst]
  rfl

theorem Held.comMod_end (h : Held s) (hn : 1 ≤ n ∧ n ≤ s.lines.length)
    (hst : ¬LineReady s.stdin) : Xv6Editor.comMod disp s n [] flag = fail (.inputIndex (-1)) := by
  have hg := h.getLineNumber_eq
  rw [Xv6Editor.comMod, if_neg (by omega), readContent_end hst]
  rfl

theorem Held.comRollback_eq (h : Held s) (disp : Display) (hr : IsRecord r)
    (hlast : s.log.getLast? = some r) :
    ∃ s', Held s' ∧ s'.lines = s.lines ∧ s'.stdin = s.stdin ∧ Xv6Editor.comRollback disp s =
      match decode r with
      | .remove n =>
        Xv6Editor.comDel disp s' n false >>= fun s => .ok (Xv6Editor.updateLineNumber s)
      | .rewrite n c =>
        Xv6Editor.comMod disp s' n c false >>= fun s => .ok (Xv6Editor.updateLineNumber s)
      | .nothing => .ok s' := by
  obtain ⟨d, M, h0⟩ := h
  rw [M.log_eq] at hlast
  obtain ⟨s', M', hs⟩ := M.comRollback_eq disp hr hlast
  exact ⟨s', ⟨_, M', h0⟩, M'.lines_eq.trans M.lines_eq.symm, M'.stdin_eq.trans M.stdin_eq.symm, hs⟩

/-- Without an answer the dialog comes to the end of the input. -/
theorem askSave_end (hc : s.changed = true) (ha : ¬Answered s.stdin) :
    askSave fuel s = fail (.inputIndex (-1)) := by
  induction fuel generalizing s with
  | zero => rfl
  | succ fuel ih =>
    rw [askSave, if_pos hc]
    by_cases hr : LineReady s.stdin
    · rw [getLine_ready hr]
      obtain ⟨hy, hn⟩ := not_or.1 fun h => ha (.now hr h)
      change (if _ then _ else if _ then _ else _) = _
      rw [if_neg hy, if_neg hn]
      exact ih hc fun h => ha (.later hr h)
    · rw [getLine_end hr]
      rfl

theorem AtPrompt.exec_end (h : AtPrompt s)
    (hf : ¬((s.Asks c → LineReady s.stdin) ∧
      (c = .exit → s.changed = true → Answered s.stdin))) :
    Xv6Editor.exec disp c s = fail (.inputIndex (-1)) := by
  rw [not_and_or, Classical.not_imp, Classical.not_imp, Classical.not_imp] at hf
  obtain ⟨hask, hst⟩ | ⟨rfl, hc, ha⟩ := hf
  · -- a content is asked for
    cases c with
    | ins n extra =>
      obtain ⟨rfl, hn⟩ := hask
      rw [Xv6Editor.exec, h.held.comIns_end hn hst]
      rfl
    | mod n extra =>
      obtain ⟨rfl, hn⟩ := hask
      rw [Xv6Editor.exec, h.held.comMod_end hn hst]
    | rb =>
      obtain ⟨r, n, hlast, hdec, hn⟩ := hask
      obtain ⟨s', h', hl, hs, heq⟩ :=
        h.held.comRollback_eq disp (h.records r (List.mem_of_getLast? hlast)) hlast
      rw [Xv6Editor.exec, heq, hdec]
      simp only
      rw [h'.comMod_end (hl ▸ hn) (hs ▸ hst)]
      rfl
    | del | «show» | hide | help | save | exit | demo | init | disp | normaldisp | invalid =>
      exact hask.elim
  · -- the question is asked
    rw [Xv6Editor.exec, comExit, askSave_end hc ha]
    rfl

/-! ### Before the end of the input -/

theorem inInput_frame (hdisp : ∀ s, EnsuresOr (fun _ => True) Halt.InInput (disp s)) :
    Frame disp (fun _ => True) Halt.InInput :=
  .ofStdin (Q := fun _ => True) (fun hf i he => hf i (Halt.fault.inj he)) (fun _ _ => nofun) hdisp

theorem setSlot_inInput (s : State) (i : ℕ) (o : Option Ptr) :
    EnsuresOr (fun _ => True) Halt.InInput (s.setSlot i o) :=
  setSlot_stdin (Q := fun _ => True) (fun hf i he => hf i (Halt.fault.inj he)) s i o trivial

section Fed

variable (F : Frame disp (fun _ => True) Halt.InInput)
include F

theorem Held.comIns_inInput (h : Held s)
    (hr : extra = [] ∧ 1 ≤ n ∧ n ≤ s.lines.length + 1 → LineReady s.stdin) :
    EnsuresOr (fun _ => True) Halt.InInput (Xv6Editor.comIns disp s n extra flag) := by
  have hg := h.getLineNumber_eq
  by_cases hn : n ≤ 0 ∨ n > getLineNumber s.text + 1 + 1
  · rw [Xv6Editor.comIns, if_pos hn]
    exact .ok trivial
  · exact F.comIns hn (readContent_inInput fun he => hr ⟨he, by omega, by omega⟩)

theorem Held.comMod_inInput (h : Held s)
    (hr : extra = [] ∧ 1 ≤ n ∧ n ≤ s.lines.length → LineReady s.stdin) :
    EnsuresOr (fun _ => True) Halt.InInput (Xv6Editor.comMod disp s n extra flag) := by
  have hg := h.getLineNumber_eq
  by_cases hn : n ≤ 0 ∨ n > getLineNumber s.text + 1
  · rw [Xv6Editor.comMod, if_pos hn]
    exact .ok trivial
  · exact F.comMod hn (readContent_inInput fun he => hr ⟨he, by omega, by omega⟩)

theorem comDel_inInput (s : State) (n : ℤ) (flag : Bool) :
    EnsuresOr (fun _ => True) Halt.InInput (comDel disp s n flag) :=
  F.comDel (fun s i _ => setSlot_inInput s i none) trivial n flag

theorem AtPrompt.comRollback_inInput (h : AtPrompt s) (hr : s.Asks .rb → LineReady s.stdin) :
    EnsuresOr (fun _ => True) Halt.InInput (Xv6Editor.comRollback disp s) := by
  cases hlast : s.log.getLast? with
  | none =>
    rw [h.held.comRollback_nil disp (List.getLast?_eq_none_iff.1 hlast)]
    exact .ok trivial
  | some r =>
    obtain ⟨s', h', hl, hs, heq⟩ :=
      h.held.comRollback_eq disp (h.records r (List.mem_of_getLast? hlast)) hlast
    rw [heq]
    cases hdec : decode r with
    | remove n => exact .bind (comDel_inInput F s' n false) fun _ _ => .ok trivial
    | rewrite n c =>
      refine .bind (h'.comMod_inInput F ?_) fun _ _ => .ok trivial
      rintro ⟨rfl, hn⟩
      rw [hs]
      exact hr ⟨r, n, hlast, hdec, hl ▸ hn⟩
    | nothing => exact .ok trivial

/-- After a save there is nothing to ask for. -/
theorem Held.comSave_inInput (h : Held s) :
    EnsuresOr (fun s' => s'.changed = false) Halt.InInput (Xv6Editor.comSave s) := by
  refine ⟨?_, (F.comSave trivial).2⟩
  obtain ⟨d, M, h0⟩ := h
  obtain ⟨ps, qs, H⟩ := M.rep
  obtain ⟨p, hp⟩ := H.exists_ptr (List.length_pos_of_ne_nil h0)
  have hslot : s.unlink.openCreate.2.slot 0 = .ok (some p) := by
    rw [← hp]
    exact H.slot_eq (i := 0) (by decide)
  unfold Xv6Editor.comSave
  generalize s.unlink.openCreate = a at hslot ⊢
  obtain ⟨_ | _, s₁⟩ := a
  · exact .error _
  · simp only [hslot, bind, Except.bind]
    exact .bind (.trivial _) fun _ _ => .bind (.trivial _) fun _ _ => .ok rfl

/-- The dialog ends with an answer, and it has enough rounds for that. -/
theorem Held.askSave_inInput (h : Held s) (hfuel : s.stdin.length < fuel)
    (ha : s.changed = true → Answered s.stdin) :
    EnsuresOr (fun _ => True) Halt.InInput (askSave fuel s) := by
  induction fuel generalizing s with
  | zero => exact absurd hfuel (Nat.not_lt_zero _)
  | succ fuel ih =>
    refine .ite (fun hc => ?_) fun _ => .ok trivial
    have ha := ha hc
    have hr : LineReady s.stdin := by cases ha <;> assumption
    have hlt := length_gets_lt hr
    have h' : Held { s with
        stdin := (gets s.stdin).2, console := s.console ++ saveQuestion } :=
      h.of_eq rfl rfl rfl rfl
    rw [getLine_ready hr]
    refine .ite (fun _ => ?_) fun hy => .ite (fun _ => .ok trivial) fun hn => ?_
    · -- `y`: the next round of the loop finds nothing to save
      refine .bind (h'.comSave_inInput F) fun s' hs' => ?_
      obtain ⟨fuel, rfl⟩ := Nat.exists_eq_succ_of_ne_zero (show fuel ≠ 0 by omega)
      rw [askSave, hs']
      exact .ok trivial
    · -- neither: the answer is still to come
      refine ih (h'.of_eq rfl rfl rfl rfl) ?_ fun _ => ?_
      · exact Nat.lt_of_lt_of_le hlt (Nat.le_of_lt_succ hfuel)
      · cases ha with
        | now _ ha => exact absurd ha (not_or.2 ⟨hy, hn⟩)
        | later _ ha => exact ha

theorem Held.comExit_inInput (h : Held s) (ha : s.changed = true → Answered s.stdin) :
    EnsuresOr (fun _ => True) Halt.InInput (comExit s) := by
  refine .bind (h.askSave_inInput F (Nat.lt_succ_self _) ha) fun s _ => .bind
    (F.scanSlots (I := fun _ => True) (fun i p s _ => ?_) _ _ trivial) fun s _ => .error nofun
  exact .bind (F.free trivial p) fun s _ => setSlot_inInput s i none

theorem AtPrompt.exec_inInput (h : AtPrompt s) (hr : s.Asks c → LineReady s.stdin)
    (ha : c = .exit → s.changed = true → Answered s.stdin) :
    EnsuresOr (fun _ => True) Halt.InInput (Xv6Editor.exec disp c s) := by
  cases c with
  | ins n extra => exact .bind (h.held.comIns_inInput F hr) fun _ _ => .ok trivial
  | mod n extra => exact h.held.comMod_inInput F hr
  | del n => exact .bind (comDel_inInput F s n true) fun _ _ => .ok trivial
  | rb => exact h.comRollback_inInput F hr
  | save => exact F.comSave trivial
  | exit => exact h.held.comExit_inInput F (ha rfl)
  | init => exact F.comInitFile trivial
  | disp => exact .bind (F.display trivial) fun _ _ => .ok trivial
  | normaldisp => exact .bind (F.showText s) fun _ _ => .ok trivial
  | «show» | hide | help | demo | invalid => exact .ok trivial

end Fed

/-! ### Rounds -/

theorem AtPrompt.roundFed_iff (hdisp : ∀ s, EnsuresOr (fun _ => True) Halt.InInput (disp s))
    (h : AtPrompt s) :
    (∀ e, Xv6Editor.promptStep disp s = .error e → e.InInput) ↔ RoundFed s := by
  have h₁ : AtPrompt { s with
      stdin := (gets s.stdin).2
      console := s.console ++ [.lit ">>> ", .sgr [1, 33], .sgr [0]] } := h.congr rfl rfl rfl rfl
  rw [promptStep_eq, cstr_pad_gets, ← State.command]
  constructor
  · intro hin
    by_contra hf
    refine hin (.fault (.inputIndex (-1))) ?_ (-1) rfl
    by_cases hr : LineReady s.stdin
    · rw [if_neg (lineReady_iff.1 hr)]
      exact h₁.exec_end fun h => hf ⟨hr, h.1, h.2⟩
    · rw [lineReady_iff, not_not] at hr
      rw [if_pos hr]
      rfl
  · intro hf
    rw [if_neg (lineReady_iff.1 hf.command)]
    exact (h₁.exec_inInput (inInput_frame hdisp) hf.content hf.answer).2

/-- A round that comes back has read something. -/
theorem promptStep_shorter (disp : Display) (s : State) :
    Ensures (fun s' => s'.stdin.length < s.stdin.length) (promptStep disp s) := by
  have F : ClosedFrame disp (fun s' => s'.stdin.length ≤ (gets s.stdin).2.length)
      fun _ => True := by
    refine .ofStdin (Q := fun st => st.length ≤ _) (fun _ => trivial) (fun _ _ => trivial)
      (fun _ => ⟨.trivial _, fun _ _ => trivial⟩) fun s' h => ?_
    rw [getLine_eq]
    exact .ite (fun _ => .error trivial) fun _ => .ok ((gets_suffix _).length_le.trans h)
  rw [promptStep_eq, cstr_pad_gets]
  refine .ite (fun _ => .error _) fun hr s' hs => ?_
  exact Nat.lt_of_le_of_lt ((F.exec le_rfl _).1 s' hs) (length_gets_lt (lineReady_iff.2 hr))

/-- A run comes to a round that does not come back. -/
theorem exists_last_round (disp : Display) (s : State) :
    ∃ s' e, Relation.ReflTransGen (Step disp) s s' ∧ promptStep disp s' = .error e := by
  -- every round makes the input shorter
  induction hn : s.stdin.length using Nat.strong_induction_on generalizing s with
  | _ n ih =>
    cases hs : promptStep disp s with
    | error e => exact ⟨s, e, .refl, hs⟩
    | ok s₁ =>
      obtain ⟨s', e, hrun, he⟩ := ih _ (hn ▸ promptStep_shorter disp s s₁ hs) s₁ rfl
      exact ⟨s', e, .head hs hrun, he⟩

theorem inInput_highlighting (s : State) :
    EnsuresOr (fun _ => True) Halt.InInput (showTextSyntaxHighlighting s) :=
  ensuresOr_highlighting s (fun hf i he => hf i (Halt.fault.inj he)) fun _ => nofun

/-- The display of the round at the prompt `s`, if it has one, comes to an end. -/
def RoundShown (s : State) : Prop :=
  ∀ w t, promptStep showTextSyntaxHighlighting s ≠ .error (.stuck w t)

theorem Abs.roundShown {d : Doc} (A : Abs False s d) (W : d.Wf) (hk : d.lines.length ≤ 255)
    (hd : ∀ d', d.step = some d' → Shows showTextSyntaxHighlighting d') : RoundShown s := by
  intro w t h
  have hR := A.promptStep showTextSyntaxHighlighting W.lines_ne hk W.newest
  cases hstep : d.step with
  | none =>
    rw [hstep] at hR
    obtain ⟨e, he, rfl | ⟨s', rfl⟩⟩ := hR
    · cases h.symm.trans he
    · cases h.symm.trans he
  | some d' =>
    obtain ⟨s', hs, -⟩ := A.step_shown W hk hstep (hd d' hstep)
    cases h.symm.trans hs

/-- A run whose rounds fit, and whose reads and displays come to an end, exits. -/
theorem Reachable.exits (h : Reachable showTextSyntaxHighlighting s) (hk : s.lines.length ≤ 255)
    (hfit : ∀ s', Relation.ReflTransGen (Step showTextSyntaxHighlighting) s s' → RoundFits s')
    (hend : ∀ s', Relation.ReflTransGen (Step showTextSyntaxHighlighting) s s' →
      RoundFed s' ∧ RoundShown s') :
    ∃ s' t, Relation.ReflTransGen (Step showTextSyntaxHighlighting) s s' ∧
      promptStep showTextSyntaxHighlighting s' = .error (.exited t) := by
  obtain ⟨s', e, hrun, he⟩ := exists_last_round showTextSyntaxHighlighting s
  obtain ⟨s₀, R⟩ := h.run hk
  have R' : Run showTextSyntaxHighlighting 255 s₀ s' := by
    clear he
    induction hrun with
    | refl => exact R
    | tail hpre hstep ih => exact ih.tail_of_fits (hfit _ hpre) hstep
  obtain ⟨hfed, hshown⟩ := hend s' hrun
  obtain (rfl | ⟨t, rfl⟩) | ⟨w, t, rfl⟩ := R'.isLast_or_stuck (hfit s' hrun) he
  · have hin := (h.trans hrun).atPrompt.roundFed_iff inInput_highlighting
    exact absurd rfl (hin.2 hfed _ he (-1))
  · exact ⟨s', t, hrun, he⟩
  · exact absurd he (hshown w t)

/-- On the way to an exit every round comes back, up to the last. -/
theorem round_before_exit {s₁ s₂ t : State} (h₁ : Relation.ReflTransGen (Step disp) s s₁)
    (he : promptStep disp s₁ = .error (.exited t)) (h₂ : Relation.ReflTransGen (Step disp) s s₂) :
    (∃ s', promptStep disp s₂ = .ok s') ∨ promptStep disp s₂ = .error (.exited t) := by
  have hdet : Relator.RightUnique (Step disp) := fun a b c hb hc =>
    Except.ok.inj (hb.symm.trans hc)
  obtain h | h := Relation.ReflTransGen.total_of_right_unique hdet h₂ h₁
  · obtain rfl | ⟨s', hs, -⟩ := Relation.ReflTransGen.cases_head h
    · exact .inr he
    · exact .inl ⟨s', hs⟩
  · -- there is no round after the exit
    obtain rfl | ⟨s', hs, -⟩ := Relation.ReflTransGen.cases_head h
    · exact .inr he
    · cases he.symm.trans hs

/-- At every prompt of a run, the round stays inside its input buffers if and only if all its reads
deliver something.  As long as the text does not fill the array, the editor comes to its `exit()`
after finitely many rounds if and only if, at all the prompts to come, the reads of the round
deliver something and its display comes to an end. -/
theorem inputIndex_iff (h : Reachable showTextSyntaxHighlighting s) :
    ((∀ i, promptStep showTextSyntaxHighlighting s ≠ .error (.fault (.inputIndex i))) ↔
      RoundFed s) ∧
    (s.lines.length ≤ 255 →
      (∀ s', Relation.ReflTransGen (Step showTextSyntaxHighlighting) s s' → RoundFits s') →
      ((∃ s' t, Relation.ReflTransGen (Step showTextSyntaxHighlighting) s s' ∧
          promptStep showTextSyntaxHighlighting s' = .error (.exited t)) ↔
        ∀ s', Relation.ReflTransGen (Step showTextSyntaxHighlighting) s s' →
          RoundFed s' ∧ RoundShown s')) := by
  have hround : ∀ {s}, Reachable showTextSyntaxHighlighting s → _ :=
    fun h => h.atPrompt.roundFed_iff inInput_highlighting
  refine ⟨?_, fun hk hfit => ⟨?_, h.exits hk hfit⟩⟩
  · rw [← hround h]
    constructor
    · rintro hin e he i rfl
      exact hin i he
    · intro hin i he
      exact hin _ he i rfl
  · rintro ⟨s₁, t, h₁, he⟩ s₂ h₂
    have hlast := round_before_exit h₁ he h₂
    constructor
    · rw [← hround (h.trans h₂)]
      rintro e hr i rfl
      obtain ⟨s', hs⟩ | hs := hlast
      · cases hr.symm.trans hs
      · cases hr.symm.trans hs
    · intro w t hr
      obtain ⟨s', hs⟩ | hs := hlast
      · cases hr.symm.trans hs
      · cases hr.symm.trans hs

/-- If the round after the next does not come back, there are two prompts. -/
theorem Abs.eq_or_abs_next {disp : Display} {s s' : State} {d d₁ : Doc} (A : Abs False s d)
    (W : d.Wf) (hk : d.lines.length ≤ 255) (hstep : d.step = some d₁)
    (hk₁ : d₁.lines.length ≤ 255) (hlast : d₁.step = none)
    (hrun : Relation.ReflTransGen (Step disp) s s') : s' = s ∨ Abs False s' d₁ ∧ d₁.Wf := by
  obtain rfl | ⟨s₁, hs₁, hrun⟩ := Relation.ReflTransGen.cases_head hrun
  · exact .inl rfl
  · obtain ⟨_, hd, A₁, W₁⟩ := A.step_of_ok W hk hs₁
    cases hd.symm.trans hstep
    obtain rfl | ⟨s₂, hs₂, -⟩ := Relation.ReflTransGen.cases_head hrun
    · exact .inr ⟨A₁, W₁⟩
    · obtain ⟨_, hd, -⟩ := A₁.step_of_ok W₁ hk₁ hs₂
      cases hd.symm.trans hlast

/-- `ins-1`, its content, `exit` and the answer `n`, in a new file. -/
theorem inputIndex_iff_session : ∃ s,
    main showTextSyntaxHighlighting (.session none (bytesOf "ins-1\nx\nexit\nn\n")) [] = .ok s ∧
    (∀ i, promptStep showTextSyntaxHighlighting s ≠ .error (.fault (.inputIndex i))) ∧
    ∃ s' t, Relation.ReflTransGen (Step showTextSyntaxHighlighting) s s' ∧
      promptStep showTextSyntaxHighlighting s' = .error (.exited t) := by
  obtain ⟨b, hb⟩ : ∃ b, b = Boot.session none (bytesOf "ins-1\nx\nexit\nn\n") := ⟨_, rfl⟩
  obtain ⟨d₁, hd₁⟩ : ∃ d₁, d₁ = { b.doc [] with
    lines := [bytesOf "x", []], log := [bytesOf "ins-1 "], changed := true,
    stdin := bytesOf "exit\nn\n" } := ⟨_, rfl⟩
  have hcmd : (b.doc []).command = .ins 1 [] := by
    rw [hb]
    decide +kernel
  have hcmd₁ : d₁.command = .exit := by
    rw [hd₁, hb]
    decide +kernel
  have hstep : (b.doc []).step = some d₁ := by
    rw [hd₁, hb]
    decide +kernel
  have hlast : d₁.step = none := by
    rw [hd₁, hb]
    decide +kernel
  have W := b.doc_wf []
  have hk : (b.doc []).lines.length ≤ 255 := by
    rw [hb]
    decide
  have hk₁ : d₁.lines.length ≤ 255 := by
    rw [hd₁, hb]
    decide
  have hshows : Shows showTextSyntaxHighlighting d₁ :=
    shows_highlighting hk₁ (by rw [hd₁, hb]; decide)
  have hstdin : (b.doc []).stdin = bytesOf "ins-1\nx\nexit\nn\n" := by rw [hb]; rfl
  have hstdin₁ : d₁.stdin = bytesOf "exit\nn\n" := by rw [hd₁]
  rw [← hb]
  obtain ⟨s, hm, A⟩ := main_shown showTextSyntaxHighlighting b [] (by rw [hb]; rfl)
    (shows_highlighting hk (by rw [hb]; decide))
  have R : Reachable showTextSyntaxHighlighting s := .of_main (by rw [hb]; nofun) hm
  have hprompts : ∀ s', Relation.ReflTransGen (Step showTextSyntaxHighlighting) s s' →
      s' = s ∨ Abs False s' d₁ ∧ d₁.Wf := fun s' hrun => A.eq_or_abs_next W hk hstep hk₁ hlast hrun
  have hfed : RoundFed s :=
    { command := by rw [A.stdin_eq, hstdin]; exact ⟨_, rfl, by decide⟩
      content := fun _ => by rw [A.stdin_eq, hstdin]; exact ⟨_, rfl, by decide⟩
      answer := fun h => nomatch (A.command_eq.trans hcmd).symm.trans h }
  have hfits : ∀ s', Relation.ReflTransGen (Step showTextSyntaxHighlighting) s s' →
      RoundFits s' := by
    intro s' hrun hlen
    obtain rfl | ⟨A₁, -⟩ := hprompts s' hrun
    · rw [A.lines_eq, hb] at hlen
      cases hlen
    · rw [A₁.lines_eq, hd₁] at hlen
      cases hlen
  have hiff := inputIndex_iff R
  refine ⟨s, hm, hiff.1.2 hfed, (hiff.2 (A.lines_eq ▸ hk) hfits).2 fun s' hrun => ?_⟩
  obtain rfl | ⟨A₁, W₁⟩ := hprompts s' hrun
  · refine ⟨hfed, A.roundShown W hk fun d' hd => ?_⟩
    cases hd.symm.trans hstep
    exact hshows
  · refine ⟨⟨?_, fun h => ?_, fun _ _ => .now ?_ ?_⟩, A₁.roundShown W₁ hk₁ fun d' hd => ?_⟩
    · rw [A₁.stdin_eq, hstdin₁]
      exact ⟨_, rfl, by decide⟩
    · rw [A₁.command_eq, hcmd₁] at h
      exact h.elim
    · rw [A₁.stdin_eq, hstdin₁]
      exact ⟨_, rfl, by decide⟩
    · rw [A₁.stdin_eq, hstdin₁]
      exact .inr (by decide +kernel)
    · cases hd.symm.trans hlast

/-- Without any input the first round writes in front of the input buffer. -/
theorem inputIndex_empty : ∃ s,
    main showTextSyntaxHighlighting (.session none []) [] = .ok s ∧
    promptStep showTextSyntaxHighlighting s = .error (.fault (.inputIndex (-1))) := by
  obtain ⟨s, hm, -⟩ := main_shown showTextSyntaxHighlighting (.session none []) [] rfl
    (shows_highlighting (by decide) (by decide))
  refine ⟨s, hm, ?_⟩
  rw [promptStep_eq, stdin_of_main hm]
  rfl

end Xv6Editor
