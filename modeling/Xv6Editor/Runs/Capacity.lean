import Xv6Editor.Runs.Invariant

/-!
# The size of the array `text`

The scans of `text` stop at a NULL, so they stay inside the array as long as it has one: with at
most 255 lines.  The loader and `com_ins` fill all 256 slots.

* `FittingRun` : the runs on a file with at most 254 newlines in which no `ins` is accepted while
  there are 255 lines.
* `textIndex_of_fitting` : they stay inside the array, and the two conditions are the exact ones
  under which a NULL is left.
-/

namespace Xv6Editor

/-- There is a NULL inside the array. -/
def State.HasNull (s : State) : Prop := ∃ i, ∃ h : i < 256, s.text[i] = none

/-- The command that is read at the prompt. -/
def State.command (s : State) : Command := parse s.lineNumber (inputBuffer (gets s.stdin).1)

/-- The command at the prompt is not an `ins` that is accepted with 255 lines. -/
def RoundFits (s : State) : Prop :=
  s.lines.length = 255 → ∀ n extra, s.command = .ins n extra → ¬(1 ≤ n ∧ n ≤ 256)

/-- The file that is opened has at most 254 newlines, or is new. -/
def Boot.Fits (b : Boot) : Prop := ∀ bs, b.file = some bs → bs.count '\n'.toUInt8 ≤ 254

/-- A run on such a file whose rounds fit. -/
structure FittingRun (disp : Display) (s₀ s : State) : Prop where
  initial : ∃ b reads, (∀ bs, b.file = some bs → Cuts bs reads) ∧ b.Fits ∧
    main disp b reads = .ok s₀
  steps : Relation.ReflTransGen (fun s s' => RoundFits s ∧ Step disp s s') s₀ s

variable {disp : Display} {zt : Prop} {s s₀ s' : State} {d : Doc} {ps qs : List Ptr}
  {ls log : List Line} {b : Boot} {reads : List (List UInt8)} {e : Halt}

theorem Rep.hasNull_iff (H : Rep zt s ps ls qs log) : s.HasNull ↔ ls.length ≤ 255 := by
  have hslot : ∀ i (h : i < 256), s.text[i] = ps[i]? := fun i h => by
    have hi : s.text[i]? = some ps[i]? := by
      rw [← Vector.getElem?_toList, H.text_eq, getElem?_slots h H.length_ps]
    rwa [Vector.getElem?_eq_getElem h, Option.some.injEq] at hi
  rw [← H.length_eq]
  constructor
  · rintro ⟨i, h, hn⟩
    rw [hslot i h, List.getElem?_eq_none_iff] at hn
    omega
  · intro h
    exact ⟨255, by decide, (hslot 255 (by decide)).trans (List.getElem?_eq_none h)⟩

theorem Mem.hasNull_iff (M : Mem zt s d) : s.HasNull ↔ d.lines.length ≤ 255 := by
  obtain ⟨ps, qs, H⟩ := M.rep
  exact H.hasNull_iff

theorem Abs.command_eq (A : Abs zt s d) : s.command = d.command := by
  rw [State.command, Doc.command, A.lineNumber_eq, A.stdin_eq]

theorem Abs.roundFits_iff (A : Abs zt s d) : RoundFits s ↔ d.Fits := by
  rw [RoundFits, Doc.Fits, A.lines_eq, A.command_eq]

/-! ### The display -/

/-- With a NULL in the array the display ends, or does not come to the end of a line. -/
theorem Rep.highlight_stuck (H : Rep zt s ps ls qs log) (hk : ls.length ≤ 255)
    (h : showTextSyntaxHighlighting s = .error e) : ∃ w, e = .stuck w s := by
  have hlen := H.length_eq
  have hscan := scanSlots_rule (highlightRound s) (fun e => ∃ w, e = .stuck w s)
    (k := 256 - ps.length) (by omega) ps (I := fun _ _ => True) (j := 0) (a := []) trivial
    fun i p out hp _ => by
      obtain ⟨l, b, -, hb, hbl⟩ := H.lines_holds.exists_block hp
      have hblock : s.block p = .ok b := by simp only [State.block, hb]
      simp only [highlightRound, strAt_eq hb hbl, hblock, bind, Except.bind]
      cases highlightLine b with
      | ok out => exact .inl ⟨_, rfl, trivial⟩
      | error w => exact .inr ⟨.stuck w s, rfl, w, rfl⟩
  unfold showTextSyntaxHighlighting at h
  rw [H.text_eq, slots] at h
  obtain ⟨out, ho, -⟩ | ⟨e', he, hE⟩ := hscan
  · rw [ho] at h
    cases h
  · rw [he] at h
    cases h
    exact hE

/-- Without a NULL it reads `text[256]`. -/
theorem Rep.highlight_full (H : Rep zt s ps ls qs log) (hk : ls.length = 256)
    (hl : ∀ b : Block 256, ∀ l ∈ ls, IsLine zt b l → ∃ out, highlightLine b = .ok out) :
    showTextSyntaxHighlighting s = .error (.fault (.textIndex 256)) := by
  have hlen := H.length_eq.trans hk
  have hscan := scanSlots_full (highlightRound s) ps (fun _ => True) (j := 0) (a := [])
    trivial fun i p out hp _ => by
      obtain ⟨l, b, hi, hb, hbl⟩ := H.lines_holds.exists_block hp
      obtain ⟨line, hline⟩ := hl b l (List.mem_of_getElem? hi) hbl
      have hblock : s.block p = .ok b := by simp only [State.block, hb]
      refine ⟨out ++ lineHead (0 + i) ++ line, ?_, trivial⟩
      simp only [highlightRound, strAt_eq hb hbl, hblock, hline, bind, Except.bind]
      rfl
  rw [hlen] at hscan
  rw [showTextSyntaxHighlighting, H.text_eq, slots, hlen, Nat.sub_self, List.replicate_zero,
    List.append_nil, hscan]
  rfl

/-! ### Runs that fit -/

/-- What `main` has opened when it shows the text. -/
theorem Boot.length_doc_le_iff (hc : ∀ bs, b.file = some bs → Cuts bs reads) :
    (b.doc reads).lines.length ≤ 255 ↔ b.Fits := by
  cases hf : b.file with
  | none => simp [Boot.lines_doc_none hf, Boot.Fits, hf]
  | some bs =>
    rw [Boot.lines_doc_some hf, length_loadLines, (hc bs hf).1, Boot.Fits, hf]
    constructor
    · rintro h _ ⟨⟩
      omega
    · intro h
      have := h bs rfl
      omega

/-- A round that fits leaves room in the array. -/
theorem Run.tail_of_fits (R : Run disp 255 s₀ s) (hs : RoundFits s) (h : Step disp s s') :
    Run disp 255 s₀ s' := by
  obtain ⟨d, A, W, hk, -⟩ := R.abs
  obtain ⟨d', hd', A', -⟩ := A.step_of_ok W hk h
  refine ⟨R.initial, R.length_le, R.steps.tail ⟨h, ?_⟩⟩
  rw [A'.lines_eq]
  exact (Doc.length_step_le_iff hk hd').2 (A.roundFits_iff.1 hs)

theorem FittingRun.run (F : FittingRun disp s₀ s) : Run disp 255 s₀ s := by
  obtain ⟨⟨b, reads, hc, hb, hm⟩, hs⟩ := F
  have hi : Initial disp s₀ := ⟨b, reads, hc, hm⟩
  have hlen : s₀.lines.length ≤ 255 := by
    have A : Abs False s₀ _ := .of_main False.elim hm
    rw [A.lines_eq]
    exact (Boot.length_doc_le_iff hc).2 hb
  induction hs with
  | refl => exact ⟨hi, hlen, .refl⟩
  | tail _ hstep ih => exact ih.tail_of_fits hstep.1 hstep.2

theorem EndsIn.stuck {Q : State → Prop} {r : Except Halt State}
    (h : EndsIn showTextSyntaxHighlighting (TextOf zt d) Q r) (hk : d.lines.length ≤ 255)
    (hr : r = .error e) : ∃ w s, e = .stuck w s := by
  obtain ⟨s, hs, -⟩ | ⟨s, e', ⟨ps, qs, H⟩, he, hs⟩ := h
  · cases hr.symm.trans hs
  · cases hr.symm.trans hs
    obtain ⟨w, rfl⟩ := H.highlight_stuck hk he
    exact ⟨w, s, rfl⟩

theorem Halt.inText_stuck (h : ∃ w s, e = .stuck w s) : e.InText := by
  obtain ⟨w, s, rfl⟩ := h
  exact fun _ => nofun

/-- How a round of a run ends that does not come back: the input is at its end, `exit()` is called,
or the display does not come to the end of a line. -/
theorem Run.isLast_or_stuck (R : Run showTextSyntaxHighlighting 255 s₀ s) (hs : RoundFits s)
    (h : promptStep showTextSyntaxHighlighting s = .error e) :
    e.IsLast ∨ ∃ w s, e = .stuck w s := by
  obtain ⟨d, A, W, hk, -⟩ := R.abs
  have hR := A.promptStep showTextSyntaxHighlighting W.lines_ne hk W.newest
  cases hd : d.step with
  | none =>
    rw [hd] at hR
    obtain ⟨e', he, hE⟩ := hR
    cases h.symm.trans he
    exact .inl hE
  | some d' =>
    rw [hd] at hR
    exact .inr (EndsIn.stuck hR ((Doc.length_step_le_iff hk hd).2 (A.roundFits_iff.1 hs)) h)

theorem main_inText (hc : ∀ bs, b.file = some bs → Cuts bs reads) (hb : b.Fits)
    (h : main showTextSyntaxHighlighting b reads = .error e) : e.InText := by
  rcases main_endsIn showTextSyntaxHighlighting b reads False.elim with hE | ⟨s, hs⟩
  · exact Halt.inText_stuck (hE.stuck ((Boot.length_doc_le_iff hc).2 hb) h)
  · cases h.symm.trans hs
    exact fun _ => nofun

theorem openFile_hasNull_iff (hc : ∀ bs, b.file = some bs → Cuts bs reads)
    (h : openFile b reads = .ok s) : s.HasNull ↔ b.Fits := by
  have A : Abs False s (b.doc reads) := by
    cases hf : b.file with
    | some bs =>
      obtain ⟨s', hs, A, -⟩ : ∃ s, openFile b reads = .ok s ∧ Abs False s _ ∧ _ :=
        openFile_some hf False.elim
      cases h.symm.trans hs
      exact A
    | none =>
      obtain ⟨s', hs, A⟩ | ⟨-, s', hs⟩ := openFile_none False reads hf
      · cases h.symm.trans hs
        exact A
      · cases h.symm.trans hs
  rw [A.hasNull_iff, Boot.length_doc_le_iff hc]

theorem FittingRun.promptStep_inText (F : FittingRun showTextSyntaxHighlighting s₀ s)
    (hs : RoundFits s) (h : promptStep showTextSyntaxHighlighting s = .error e) : e.InText :=
  (F.run.isLast_or_stuck hs h).elim Halt.IsLast.inText Halt.inText_stuck

theorem FittingRun.step_hasNull_iff (F : FittingRun disp s₀ s) (h : Step disp s s') :
    s'.HasNull ↔ RoundFits s := by
  obtain ⟨d, A, W, hk, -⟩ := F.run.abs
  obtain ⟨d', hd', A', -⟩ := A.step_of_ok W hk h
  rw [A'.hasNull_iff, A.roundFits_iff, Doc.length_step_le_iff hk hd']

/-- Opening a file with at most 254 newlines, and then rounds without an `ins` that is accepted
with 255 lines, never leaves the array `text`: no slot outside of it is read or written, there is
a NULL in it at every prompt, and `com_ins` accepts no line after the 256th.  Both conditions are
exact: without them the array has no NULL afterwards. -/
theorem textIndex_of_fitting (hc : ∀ bs, b.file = some bs → Cuts bs reads) :
    (∀ s, openFile b reads = .ok s → (s.HasNull ↔ b.Fits)) ∧
    (b.Fits →
      (∀ i, main showTextSyntaxHighlighting b reads ≠ .error (.fault (.textIndex i))) ∧
      ∀ s₀ s, main showTextSyntaxHighlighting b reads = .ok s₀ →
        Relation.ReflTransGen
          (fun s s' => RoundFits s ∧ Step showTextSyntaxHighlighting s s') s₀ s →
        s.HasNull ∧ getLineNumber s.text + 2 ≤ 256 ∧
        (RoundFits s →
          ∀ i, promptStep showTextSyntaxHighlighting s ≠ .error (.fault (.textIndex i))) ∧
        ∀ s', Step showTextSyntaxHighlighting s s' → (s'.HasNull ↔ RoundFits s)) := by
  refine ⟨fun s h => openFile_hasNull_iff hc h, fun hb =>
    ⟨fun i h => main_inText hc hb h i rfl, fun s₀ s hm hs => ?_⟩⟩
  have F : FittingRun showTextSyntaxHighlighting s₀ s := ⟨⟨b, reads, hc, hb, hm⟩, hs⟩
  obtain ⟨d, A, W, hk, -⟩ := F.run.abs
  refine ⟨A.hasNull_iff.2 hk, ?_, fun hs i h => F.promptStep_inText hs h i rfl,
    fun s' h => F.step_hasNull_iff h⟩
  rw [(A.repInv W.lines_ne hk).getLineNumber_eq]
  omega

theorem textIndex_of_fitting_session : ∃ s₀,
    main showTextSyntaxHighlighting (.session none (bytesOf "ins int x;\n")) [] = .ok s₀ ∧
    RoundFits s₀ ∧
    ∀ i, promptStep showTextSyntaxHighlighting s₀ ≠ .error (.fault (.textIndex i)) := by
  obtain ⟨s₀, s, hm, R, -⟩ := Run.of_checkRun showTextSyntaxHighlighting 1 0
    (fun _ => true) (.session none (bytesOf "ins int x;\n")) [] nofun (by decide +kernel)
  have hs : RoundFits s₀ := fun h => absurd R.length_le (by rw [h]; decide)
  obtain ⟨-, hruns⟩ := (textIndex_of_fitting
    (b := .session none (bytesOf "ins int x;\n")) nofun).2 nofun
  obtain ⟨-, -, hfit, -⟩ := hruns s₀ s₀ hm .refl
  exact ⟨s₀, hm, hs, hfit hs⟩

/-- The display of 256 empty lines reads `text[256]`. -/
theorem main_textIndex_of_empty {bs : List UInt8} (hf : b.file = some bs) (hz : 0 ∉ reads.flatten)
    (hl : loadLines reads = List.replicate 256 []) :
    main showTextSyntaxHighlighting b reads = .error (.fault (.textIndex 256)) := by
  obtain ⟨s, ho, A, ha⟩ : ∃ s, openFile b reads = .ok s ∧ Abs True s _ ∧ s.autoShow = true :=
    openFile_some hf fun _ => hz
  obtain ⟨ps, qs, H⟩ := A.rep
  rw [Boot.lines_doc_some hf, hl] at H
  have hd := H.highlight_full List.length_replicate fun b l hl hb => by
    obtain rfl := List.eq_of_mem_replicate hl
    have hz : b = Block.zero 256 := Block.ext (hb.2.2 trivial)
    rw [hz]
    exact ⟨_, rfl⟩
  simp only [main, ho, autoDisplay, ha, hd, hf, bind, Except.bind]
  rfl

/-- A file of 255 newlines fills the array. -/
theorem main_textIndex_newlines :
    Cuts (List.replicate 255 '\n'.toUInt8) [List.replicate 255 '\n'.toUInt8] ∧
    main showTextSyntaxHighlighting (.session (some (List.replicate 255 '\n'.toUInt8)) [])
      [List.replicate 255 '\n'.toUInt8] = .error (.fault (.textIndex 256)) := by
  have hl : loadLines [List.replicate 255 '\n'.toUInt8] = List.replicate 256 [] :=
    loadLines_joinLines (fun l hl => by simp [List.eq_of_mem_replicate hl])
      (fun l hl => by simp [List.eq_of_mem_replicate hl]) List.length_replicate.le
      (List.ne_nil_of_length_pos (by rw [List.length_replicate]; decide)) (by decide +kernel)
  exact ⟨by decide +kernel, main_textIndex_of_empty rfl (by decide +kernel) hl⟩

end Xv6Editor
