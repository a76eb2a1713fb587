import Xv6Editor.Display.Loop
import Xv6Editor.Doc.Invariant
import Xv6Editor.Rep.Loader

/-!
# Where the display comes to an end

If the quotations of a text are closed, `show_text_syntax_highlighting` comes to an end on it.  So a
command that leaves such a text returns, and what it does can be computed on the document.

* `Rep.highlighting_returns` : the display of a text whose quotations are closed.
* `main_shown`, `Abs.exec_shown`, `Abs.step_shown` : the first prompt, a command and a round, if the
  text can be displayed.
-/

namespace Xv6Editor

variable {disp : Display} {zt : Prop} {s : State} {d d' : Doc} {b : Block 256} {l : Line}
  {ls log : List Line} {ps qs : List Ptr}

/-- A line whose quotations are closed, whatever is behind it. -/
theorem highlightLine_returns (hb : IsLine zt b l) (hc : QuotesClosed l) :
    ∃ out, highlightLine b = .ok out := by
  obtain ⟨pos, -, -, hv⟩ := commentLine_eq hb
  obtain ⟨out, -, hout, -⟩ := scanLoop_closed 0 hb (Nat.zero_le _) hc (show 256 - 0 < 257 by decide)
  rw [highlightLine]
  split_ifs
  · exact ⟨_, rfl⟩
  · simp only [hv, hout, bind, Except.bind]
    split_ifs
    · exact ⟨_, rfl⟩
    · exact ⟨_, rfl⟩

/-- The display of a text whose quotations are closed comes to an end. -/
theorem Rep.highlighting_returns (H : Rep zt s ps ls qs log) (hk : ls.length ≤ 255)
    (hc : ∀ l ∈ ls, QuotesClosed l) : ∃ out, showTextSyntaxHighlighting s = .ok out := by
  have hlen := H.length_eq
  have hscan := scanSlots_rule (highlightRound s) (fun _ => False) (k := 256 - ps.length)
    (by omega) ps (I := fun _ _ => True) (j := 0) (a := []) trivial fun i p out hp _ => by
      obtain ⟨l, b, hl, hb, hbl⟩ := H.lines_holds.exists_block hp
      obtain ⟨line, hline⟩ := highlightLine_returns hbl (hc l (List.mem_of_getElem? hl))
      refine .inl ⟨out ++ lineHead i ++ line, ?_, trivial⟩
      simp only [highlightRound, strAt_eq hb hbl, State.block, hb, hline, bind, Except.bind,
        Except.mapError, Nat.zero_add]
  obtain ⟨out, ho, -⟩ | ⟨e, -, he⟩ := hscan
  · rw [showTextSyntaxHighlighting, H.text_eq, slots, ho]
    exact ⟨_, rfl⟩
  · exact he.elim

/-! ### Commands and rounds -/

/-- The display comes to an end wherever the document is in memory. -/
def Shows (disp : Display) (d : Doc) : Prop := ∀ s, TextOf False d s → ∃ out, disp s = .ok out

theorem shows_noDisplay (d : Doc) : Shows noDisplay d := fun _ _ => ⟨[], rfl⟩

theorem shows_highlighting (hk : d.lines.length ≤ 255) (hc : ∀ l ∈ d.lines, QuotesClosed l) :
    Shows showTextSyntaxHighlighting d := by
  rintro s ⟨ps, qs, H⟩
  exact H.highlighting_returns hk hc

theorem EndsIn.exists_shown {Q : State → Prop} {r : Except Halt State}
    (h : EndsIn disp (TextOf zt d) Q r) (hd : Shows disp d) : ∃ s, r = .ok s ∧ Q s := by
  obtain hs | ⟨s, e, ⟨ps, qs, H⟩, he, -⟩ := h
  · exact hs
  · obtain ⟨out, ho⟩ := hd s ⟨ps, qs, H.mono False.elim⟩
    cases ho.symm.trans he

/-- If the kernel serves every call, `main` comes to its first prompt. -/
theorem main_shown (disp : Display) (b : Boot) (reads : List (List UInt8)) (hb : b.answers = [])
    (hs : Shows disp (b.doc reads)) :
    ∃ s, main disp b reads = .ok s ∧ Abs False s (b.doc reads) := by
  unfold main
  cases hf : b.file with
  | some bs =>
    obtain ⟨s, ho, A, -⟩ : ∃ s, openFile b reads = .ok s ∧ Abs False s (b.doc reads) ∧ _ :=
      openFile_some hf False.elim
    rw [ho]
    exact EndsIn.exists_shown (.autoDisplay A.rep (fun out => A.print out) A) hs
  | none =>
    obtain ⟨s, ho, A⟩ | ⟨hfail, -⟩ := openFile_none False reads hf
    · rw [ho]
      exact ⟨s, rfl, A⟩
    · rw [hb] at hfail
      cases hfail

/-- A command that leaves a text which can be displayed returns, and memory holds what it makes of
the document. -/
theorem Abs.exec_shown {c : Command} (A : Abs False s d) (W : d.Wf) (hk : d.lines.length ≤ 255)
    (hc : c.Fits) (hd : d.exec c = some d') (hs : Shows disp d') :
    ∃ s', Xv6Editor.exec disp c s = .ok s' ∧ Abs False s' d' ∧ d'.Wf := by
  have hR := A.exec disp W.lines_ne hk hc fun _ => W.newest
  rw [hd] at hR
  obtain ⟨s', h, A'⟩ := EndsIn.exists_shown hR hs
  exact ⟨s', h, A'.mono False.elim, W.effect hk (Doc.exec_effect hd)⟩

/-- So does a round of the command loop. -/
theorem Abs.step_shown (A : Abs False s d) (W : d.Wf) (hk : d.lines.length ≤ 255)
    (hd : d.step = some d') (hs : Shows disp d') :
    ∃ s', Step disp s s' ∧ Abs False s' d' ∧ d'.Wf := by
  have hR := A.promptStep disp W.lines_ne hk W.newest
  rw [hd] at hR
  obtain ⟨s', h, A'⟩ := EndsIn.exists_shown hR hs
  exact ⟨s', h, A'.mono False.elim, W.step hk hd⟩

end Xv6Editor
