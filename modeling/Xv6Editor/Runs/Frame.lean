import Xv6Editor.CMem.Ensures
import Xv6Editor.Editor.Main

/-!
# What every command keeps

The commands print, write to the heap, to the undo log and to the disk, put pointers into `text`
and set the flags.  `Frame disp P E` says that a property `P` of the state does not depend on that,
and that `E` holds of the errors which come from it.  Then the commands keep `P`, and end in `E` if
they do not return; what is left to show for a given `P` is that it is kept by the reading of a
line, and by the release of one (`ClosedFrame`).

Nothing is assumed of the state here: the results hold with dangling pointers and a full array, too.
-/

namespace Xv6Editor

/-- A scan keeps what its rounds keep, and ends in their errors or past the last slot. -/
theorem scanSlots_ensuresOr {σ : Type} {I : σ → Prop} {E : Halt → Prop}
    {body : ℕ → Ptr → σ → Except Halt σ} (hE : ∀ i, E (.fault (.textIndex i)))
    (hb : ∀ j p a, I a → EnsuresOr I E (body j p a)) (slots : List (Option Ptr)) (j : ℕ) {a : σ}
    (h : I a) : EnsuresOr I E (scanSlots body slots j a) := by
  induction slots generalizing j a with
  | nil => exact .error (hE j)
  | cons o slots ih =>
    cases o with
    | none => exact .ok h
    | some p => exact .bind (hb j p a h) fun a h => ih (j + 1) h

/-- `P` is kept by everything but the reading of a line and the release of one, and `E` holds of
the errors. -/
structure Frame (disp : Display) (P : State → Prop) (E : Halt → Prop) : Prop where
  congr : ∀ {s s' : State}, P s → s'.text = s.text → s'.stdin = s.stdin → P s'
  setSlot : ∀ {s : State} (i : ℕ) (p : Ptr), P s → EnsuresOr P E (s.setSlot i (some p))
  fault : ∀ {f : Fault}, (∀ i, f ≠ .inputIndex i) → E (.fault f)
  exited : ∀ {s : State}, P s → E (.exited s)
  display : ∀ {s : State}, P s → EnsuresOr (fun _ => True) E (disp s)

namespace Frame

variable {disp : Display} {P : State → Prop} {E : Halt → Prop} {s : State} {p : Ptr} {n : ℤ}
  {extra : Line} {flag : Bool}

/-! ### Memory operations -/

theorem fail {α : Type} {Q : α → Prop} (F : Frame disp P E) {f : Fault}
    (h : ∀ i, f ≠ .inputIndex i) : EnsuresOr Q E (fail f) :=
  .error (F.fault h)

theorem free (F : Frame disp P E) (h : P s) (p : Ptr) : EnsuresOr P E (s.free p) := by
  unfold State.free
  split
  · exact .ok (F.congr h rfl rfl)
  · exact F.fail nofun

theorem block (F : Frame disp P E) (s : State) (p : Ptr) :
    EnsuresOr (fun _ => True) E (s.block p) := by
  unfold State.block
  split
  · exact .ok trivial
  · exact F.fail nofun

theorem strAt (F : Frame disp P E) (s : State) (p : Ptr) (off : ℕ) :
    EnsuresOr (fun _ => True) E (s.strAt p off) :=
  .bind (F.block s p) fun _ _ => .ite (fun _ => .ok trivial) fun _ => F.fail nofun

theorem slot (F : Frame disp P E) (s : State) (i : ℕ) :
    EnsuresOr (fun _ => True) E (s.slot i) := by
  unfold State.slot
  split
  · exact .ok trivial
  · exact F.fail nofun

theorem slotPtr (F : Frame disp P E) (s : State) (i : ℕ) :
    EnsuresOr (fun _ => True) E (s.slotPtr i) :=
  .bind (F.slot s i) fun o _ => by
    cases o with
    | none => exact F.fail nofun
    | some p => exact .ok trivial

theorem commandPtr (F : Frame disp P E) (s : State) (n : ℤ) :
    EnsuresOr (fun _ => True) E (s.commandPtr n) := by
  unfold State.commandPtr
  refine .ite (fun _ => F.fail nofun) fun _ => ?_
  split
  · exact .ok trivial
  · exact F.fail nofun

theorem putBytes (F : Frame disp P E) (h : P s) (p : Ptr) (bs : List UInt8) :
    EnsuresOr P E (s.putBytes p bs) := by
  unfold State.putBytes
  split
  · exact F.fail nofun
  · split
    · exact .ok (F.congr h rfl rfl)
    · exact F.fail nofun

theorem strcpy (F : Frame disp P E) (h : P s) (p : Ptr) (c : Line) :
    EnsuresOr P E (s.strcpy p c) :=
  .bind (F.block s p) fun _ _ => F.putBytes h p _

theorem memsetSlot (F : Frame disp P E) (h : P s) (i : ℕ) : EnsuresOr P E (s.memsetSlot i) :=
  .bind (F.slotPtr s i) fun p _ => F.putBytes h p _

theorem strcpySlot (F : Frame disp P E) (h : P s) (i : ℕ) (c : Line) :
    EnsuresOr P E (s.strcpySlot i c) :=
  .bind (F.slotPtr s i) fun p _ => F.strcpy h p c

theorem slotStr (F : Frame disp P E) (h : P s) (i : ℕ) :
    EnsuresOr (fun r => P r.2) E (s.slotStr i) :=
  .bind (F.slot s i) fun o _ => by
    cases o with
    | none => exact .ok (F.congr h rfl rfl)
    | some p => exact .bind (F.strAt s p 0) fun _ _ => .ok h

theorem malloc (F : Frame disp P E) (h : P s) : P s.malloc.2 := F.congr h rfl rfl

theorem setCommandPtr (F : Frame disp P E) (h : P s) (n : ℤ) (p : Ptr) :
    EnsuresOr P E (s.setCommandPtr n p) := by
  unfold State.setCommandPtr
  split
  · exact .ok (F.congr h rfl rfl)
  · exact F.fail nofun

theorem print (F : Frame disp P E) (h : P s) (out : List Piece) : P (s.print out) :=
  F.congr h rfl rfl

theorem autoDisplay (F : Frame disp P E) (h : P s) : EnsuresOr P E (autoDisplay disp s) :=
  .ite (fun _ => .bind (F.display h) fun out _ => .ok (F.print h out)) fun _ => .ok h

theorem scanSlots (F : Frame disp P E) {σ : Type} {I : σ → Prop}
    {body : ℕ → Ptr → σ → Except Halt σ} (hb : ∀ j p a, I a → EnsuresOr I E (body j p a))
    (slots : List (Option Ptr)) (j : ℕ) {a : σ} (h : I a) :
    EnsuresOr I E (scanSlots body slots j a) :=
  scanSlots_ensuresOr (fun _ => F.fault nofun) hb slots j h

/-! ### Editing -/

theorem shiftCommands (F : Frame disp P E) (h : P s) (k : ℕ) :
    EnsuresOr P E (shiftCommands k s) := by
  induction k generalizing s with
  | zero => exact .ok h
  | succ k ih =>
    exact .bind (F.commandPtr s _) fun p _ => .bind (F.strAt s p 0) fun c _ =>
      .bind (F.commandPtr s _) fun q _ => .bind (F.strcpy h q c) fun _ h => ih h

theorem recordCommand (F : Frame disp P E) (h : P s) (c : Line) :
    EnsuresOr P E (recordCommand s c) := by
  refine .ite (fun _ => ?_) fun _ => ?_
  · exact .bind (F.setCommandPtr (F.malloc h) _ _) fun _ h => .bind (F.strcpy h _ c) fun _ h =>
      .ok (F.congr h rfl rfl)
  · exact .bind (F.shiftCommands h _) fun s h => .bind (F.commandPtr s _) fun p _ =>
      .bind (F.strcpy h p c) fun _ h => .ok (F.congr h rfl rfl)

theorem insShiftBody (F : Frame disp P E) (h : P s) (i : ℕ) :
    EnsuresOr P E (insShiftBody s i) := by
  refine .bind (F.slot s _) fun o _ => ?_
  cases o with
  | none => exact .ok h
  | some q =>
    refine .bind (F.slot s i) fun o _ => ?_
    have hmove : ∀ s, P s → EnsuresOr P E (do
        let s ← s.memsetSlot i
        s.strcpySlot i (← s.strAt q 0)) := fun s h =>
      .bind (F.memsetSlot h i) fun s h => .bind (F.strAt s q 0) fun c _ => F.strcpySlot h i c
    cases o with
    | none => exact .bind (F.setSlot i _ (F.malloc h)) hmove
    | some _ => exact hmove s h

theorem insShift (F : Frame disp P E) (h : P s) (m i : ℕ) : EnsuresOr P E (insShift m i s) := by
  induction i generalizing s with
  | zero => exact .ok h
  | succ i ih =>
    exact .ite (fun _ => .bind (F.insShiftBody h (i + 1)) fun _ h => ih h) fun _ => .ok h

/-- The end of `com_ins` and `com_mod`. -/
theorem record (F : Frame disp P E) (h : P s) (c : Line) (flag : Bool) :
    EnsuresOr P E (
      if flag then
        Xv6Editor.recordCommand { s with changed := true } c >>= Xv6Editor.autoDisplay disp
      else .ok { s with changed := true } >>= Xv6Editor.autoDisplay disp) :=
  have h' : P { s with changed := true } := F.congr h rfl rfl
  .ite_bind (fun _ => F.recordCommand h' c) (fun _ => .ok h') fun _ h => F.autoDisplay h

theorem insPlace (F : Frame disp P E) (h : P s) (m : ℕ) (n : ℤ) (input part4 : Line)
    (flag : Bool) : EnsuresOr P E (insPlace disp s m n input part4 flag) :=
  .bind (F.memsetSlot h m) fun _ h => .bind (F.strcpySlot h m input) fun _ h =>
    F.record h _ flag

/-- `com_ins` at a valid line number; the content is read first. -/
theorem comIns (F : Frame disp P E) (hn : ¬(n ≤ 0 ∨ n > getLineNumber s.text + 1 + 1))
    (hr : EnsuresOr (fun r => P r.2) E (readContent s extra)) :
    EnsuresOr P E (comIns disp s n extra flag) := by
  rw [Xv6Editor.comIns, if_neg hn]
  refine .bind hr ?_
  rintro ⟨input, s⟩ h
  refine .ite_bind (fun _ => F.slotStr h _) (fun _ => .ok h) ?_
  rintro ⟨part4, s⟩ h
  refine .bind (F.insShift h _ _) fun s h => .bind (F.slot s _) fun o _ => ?_
  cases o with
  | some _ => exact F.insPlace h _ _ _ _ _
  | none =>
    refine .bind (F.setSlot _ _ (F.malloc h)) fun s h => ?_
    refine .ite (fun _ => F.fail nofun) fun _ => .bind (F.slotStr h _) ?_
    rintro ⟨prev, s⟩ h
    refine .ite (fun _ => ?_) fun _ => F.insPlace h _ _ _ _ _
    exact .bind (F.memsetSlot h _) fun _ h => .bind (F.strcpySlot h _ _) fun s h =>
      F.autoDisplay (F.congr h rfl rfl)

/-- `com_mod` at a valid line number. -/
theorem comMod (F : Frame disp P E) (hn : ¬(n ≤ 0 ∨ n > getLineNumber s.text + 1))
    (hr : EnsuresOr (fun r => P r.2) E (readContent s extra)) :
    EnsuresOr P E (comMod disp s n extra flag) := by
  rw [Xv6Editor.comMod, if_neg hn]
  refine .bind hr ?_
  rintro ⟨input, s⟩ h
  refine .ite_bind (fun _ => F.slotStr h _) (fun _ => .ok h) ?_
  rintro ⟨part4, s⟩ h
  exact .bind (F.memsetSlot h _) fun _ h => .bind (F.strcpySlot h _ _) fun _ h =>
    F.record h _ flag

theorem delShift (F : Frame disp P E) (h : P s) (fuel i : ℕ) :
    EnsuresOr (fun r => P r.2) E (delShift fuel i s) := by
  induction fuel generalizing s i with
  | zero => exact F.fail nofun
  | succ fuel ih =>
    refine .bind (F.slot s _) fun o _ => ?_
    cases o with
    | none => exact .ok h
    | some q =>
      exact .bind (F.strAt s q 0) fun c _ => .bind (F.strcpySlot h i c) fun _ h =>
        .bind (F.memsetSlot h _) fun _ h => ih h (i + 1)

/-- `com_del`, if `P` allows the release of a line. -/
theorem comDel (F : Frame disp P E)
    (hnull : ∀ (s : State) (i : ℕ), P s → EnsuresOr P E (s.setSlot i none)) (h : P s) (n : ℤ)
    (flag : Bool) : EnsuresOr P E (comDel disp s n flag) := by
  refine .ite (fun _ => .ok (F.print h _)) fun _ =>
    .ite_bind (fun _ => F.slotStr h _) (fun _ => .ok h) ?_
  rintro ⟨part4, s⟩ h
  refine .bind (F.memsetSlot h _) fun _ h => .bind (F.delShift h _ _) ?_
  rintro ⟨i, s⟩ h
  have hrel : EnsuresOr P E (releaseSlot s i) :=
    .ite (fun _ => .bind (F.slotPtr s i) fun p _ => .bind (F.free h p) fun s h => hnull s i h)
      fun _ => .ok h
  exact .bind hrel fun s h => F.autoDisplay (F.congr h rfl rfl)

theorem initShift (F : Frame disp P E) (h : P s) (i : ℕ) (init : List Line) :
    EnsuresOr P E (initShift i init s) := by
  induction init generalizing s i with
  | nil => exact .ok h
  | cons l init ih =>
    exact .bind (F.setSlot i _ (F.malloc h)) fun _ h => .bind (F.strcpySlot h i l) fun _ h =>
      ih h (i + 1)

theorem comInitFile (F : Frame disp P E) (h : P s) : EnsuresOr P E (comInitFile disp s) :=
  .bind (F.initShift h _ _) fun s h =>
    have h' : P (updateLineNumber s) := F.congr h rfl rfl
    .bind (F.display h') fun _ _ => .ok (F.congr h rfl rfl)

theorem showText (F : Frame disp P E) (s : State) :
    EnsuresOr (fun _ => True) E (showText s) :=
  .bind (F.scanSlots (I := fun _ => True)
    (fun _ p _ _ => .bind (F.strAt s p 0) fun _ _ => .ok trivial) _ _ trivial)
    fun _ _ => .ok trivial

/-! ### Files -/

theorem saveBody (F : Frame disp P E) {a : ℕ × State} (h : P a.2) (p : Ptr) :
    EnsuresOr (fun a => P a.2) E (saveBody p a) :=
  .bind (F.strAt _ p 0) fun _ _ => .ok (F.congr h rfl rfl)

theorem comSave (F : Frame disp P E) (h : P s) : EnsuresOr P E (comSave s) := by
  have hopen : P s.unlink.openCreate.2 := F.congr h rfl rfl
  unfold Xv6Editor.comSave
  generalize s.unlink.openCreate = r at hopen ⊢
  obtain ⟨_ | _, s₁⟩ := r
  · exact .error (F.exited (F.print hopen _))
  · refine .bind (F.slot s₁ 0) fun o _ => ?_
    cases o with
    | none => exact .ok hopen
    | some p =>
      refine .bind (F.strAt s₁ p 0) fun l _ => .bind (F.scanSlots (I := fun a => P a.2)
        (fun _ p _ h => F.saveBody h p) _ _ (F.congr hopen rfl rfl)) ?_
      rintro ⟨off, s⟩ h
      exact .ok (F.congr h rfl rfl)

/-- `com_exit`, if `P` is kept by the reading and by the release of a line. -/
theorem comExit (F : Frame disp P E)
    (hread : ∀ s : State, P s → EnsuresOr (fun r => P r.2) E (getLine s))
    (hend : E (.fault (.inputIndex (-1))))
    (hnull : ∀ (s : State) (i : ℕ), P s → EnsuresOr P E (s.setSlot i none)) (h : P s) :
    EnsuresOr P E (Xv6Editor.comExit s) := by
  have hask : ∀ (fuel : ℕ) (s : State), P s → EnsuresOr P E (askSave fuel s) := by
    intro fuel
    induction fuel with
    | zero => exact fun s _ => .error hend
    | succ fuel ih =>
      intro s h
      refine .ite (fun _ => .bind (hread _ (F.print h _)) ?_) fun _ => .ok h
      rintro ⟨input, s⟩ h
      exact .ite (fun _ => .bind (F.comSave h) fun s h => ih s h) fun _ =>
        .ite (fun _ => .ok h) fun _ => ih _ (F.print h _)
  refine .bind (hask _ s h) fun s h => .bind (F.scanSlots (I := P) (fun i p s h => ?_) _ _ h)
    fun s h => .error (F.exited h)
  exact .bind (F.free h p) fun s h => hnull s i h

end Frame

/-- The errors of the display: it gets stuck in a line, or has a fault. -/
theorem ensuresOr_highlighting {E : Halt → Prop} (s : State)
    (hfault : ∀ {f : Fault}, (∀ i, f ≠ .inputIndex i) → E (.fault f))
    (hstuck : ∀ w, E (.stuck w s)) :
    EnsuresOr (fun _ => True) E (showTextSyntaxHighlighting s) := by
  have F : Frame noDisplay (fun _ => False) E :=
    { congr := fun h _ _ => h
      setSlot := fun _ _ h => h.elim
      fault := hfault
      exited := fun h => h.elim
      display := fun h => h.elim }
  refine .bind (F.scanSlots (I := fun _ => True) (fun j p out _ => ?_) _ _ trivial)
    fun _ _ => .ok trivial
  refine .bind (F.strAt s p 0) fun _ _ => .bind (F.block s p) fun b _ => ?_
  cases hb : highlightLine b with
  | error w => exact .error (hstuck w)
  | ok line => exact .ok trivial

/-! ### The command loop -/

/-- `P` is also kept by the reading of a line, and by the commands that release lines. -/
structure ClosedFrame (disp : Display) (P : State → Prop) (E : Halt → Prop) : Prop
    extends Frame disp P E where
  read : ∀ {s : State}, P s → EnsuresOr (fun r => P r.2) E (getLine s)
  del : ∀ {s : State} (n : ℤ) (flag : Bool), P s → EnsuresOr P E (comDel disp s n flag)
  exit : ∀ {s : State}, P s → EnsuresOr P E (comExit s)

namespace ClosedFrame

variable {disp : Display} {P : State → Prop} {E : Halt → Prop} {s : State}

theorem readContent (F : ClosedFrame disp P E) (h : P s) (extra : Line) :
    EnsuresOr (fun r => P r.2) E (readContent s extra) :=
  .ite (fun _ => F.read (F.print h _)) fun _ => .ok h

theorem comIns (F : ClosedFrame disp P E) (h : P s) (n : ℤ) (extra : Line) (flag : Bool) :
    EnsuresOr P E (comIns disp s n extra flag) := by
  by_cases hn : n ≤ 0 ∨ n > getLineNumber s.text + 1 + 1
  · rw [Xv6Editor.comIns, if_pos hn]
    exact .ok (F.print h _)
  · exact F.toFrame.comIns hn (F.readContent h extra)

theorem comMod (F : ClosedFrame disp P E) (h : P s) (n : ℤ) (extra : Line) (flag : Bool) :
    EnsuresOr P E (comMod disp s n extra flag) := by
  by_cases hn : n ≤ 0 ∨ n > getLineNumber s.text + 1
  · rw [Xv6Editor.comMod, if_pos hn]
    exact .ok (F.print h _)
  · exact F.toFrame.comMod hn (F.readContent h extra)

theorem comRollback (F : ClosedFrame disp P E) (h : P s) : EnsuresOr P E (comRollback disp s) := by
  refine .ite (fun _ => .ok (F.print h _)) fun _ => .bind (F.commandPtr _ _) fun q _ =>
    .bind (F.strAt _ q 0) fun c _ => .bind (F.strcpy (F.malloc h) _ c) fun s h => ?_
  have h' : P { s with upperBound := s.upperBound - 1 } := F.congr h rfl rfl
  refine .bind (F.block _ _) fun b _ => ?_
  refine .ite (fun _ => ?_) fun _ => .ite (fun _ => ?_) fun _ => .ite (fun _ => ?_) fun _ => .ok h'
  · exact .bind (F.strAt _ _ _) fun _ _ => .bind (F.del _ _ h') fun _ h => .ok (F.congr h rfl rfl)
  · exact .bind (F.strAt _ _ _) fun _ _ => .bind (F.strAt _ _ _) fun _ _ =>
      .bind (F.comMod h' _ _ _) fun _ h => .ok (F.congr h rfl rfl)
  · exact .bind (F.strAt _ _ _) fun _ _ => .bind (F.strAt _ _ _) fun _ _ =>
      .bind (F.comIns h' _ _ _) fun _ h => .ok (F.congr h rfl rfl)

theorem exec (F : ClosedFrame disp P E) (h : P s) (c : Command) :
    EnsuresOr P E (exec disp c s) := by
  cases c with
  | ins n extra => exact .bind (F.comIns h n extra true) fun _ h => .ok (F.congr h rfl rfl)
  | mod n extra => exact F.comMod h n extra true
  | del n => exact .bind (F.del n true h) fun _ h => .ok (F.congr h rfl rfl)
  | rb => exact F.comRollback h
  | save => exact F.comSave h
  | exit => exact F.exit h
  | init => exact F.comInitFile h
  | disp => exact .bind (F.display h) fun out _ => .ok (F.print h out)
  | normaldisp => exact .bind (F.showText s) fun out _ => .ok (F.print h out)
  | «show» | hide | help | demo | invalid => exact .ok (F.congr h rfl rfl)

theorem promptStep (F : ClosedFrame disp P E) (h : P s) : EnsuresOr P E (promptStep disp s) := by
  have hread := F.read h
  rw [getLine_eq] at hread
  rw [promptStep_eq, cstr_pad_gets]
  split_ifs with hg
  · rw [if_pos hg] at hread
    exact .error (hread.2 _ rfl)
  · rw [if_neg hg] at hread
    refine F.exec ?_ _
    exact F.congr (hread.1 _ rfl) rfl rfl

end ClosedFrame

/-! ### Properties of the input -/

section Input

variable {disp : Display} {Q : List UInt8 → Prop} {E : Halt → Prop}

theorem setSlot_stdin (hfault : ∀ {f : Fault}, (∀ i, f ≠ .inputIndex i) → E (.fault f)) (s : State)
    (i : ℕ) (o : Option Ptr) (h : Q s.stdin) :
    EnsuresOr (fun s => Q s.stdin) E (s.setSlot i o) := by
  unfold State.setSlot
  split
  · exact .ok h
  · exact .error (hfault nofun)

/-- A property of what is left of the input. -/
theorem Frame.ofStdin (hfault : ∀ {f : Fault}, (∀ i, f ≠ .inputIndex i) → E (.fault f))
    (hexit : ∀ s : State, Q s.stdin → E (.exited s))
    (hdisp : ∀ s, EnsuresOr (fun _ => True) E (disp s)) : Frame disp (fun s => Q s.stdin) E where
  congr := by
    intro s s' h _ hs
    rwa [hs]
  setSlot i p h := setSlot_stdin hfault _ i (some p) h
  fault := hfault
  exited h := hexit _ h
  display {s} _ := hdisp s

/-- A property of what is left of the input that is kept by the reading of a line. -/
theorem ClosedFrame.ofStdin (hfault : ∀ f : Fault, E (.fault f))
    (hexit : ∀ s : State, Q s.stdin → E (.exited s))
    (hdisp : ∀ s, EnsuresOr (fun _ => True) E (disp s))
    (hread : ∀ s : State, Q s.stdin → EnsuresOr (fun r => Q r.2.stdin) E (getLine s)) :
    ClosedFrame disp (fun s => Q s.stdin) E := by
  have F : Frame disp (fun s => Q s.stdin) E := .ofStdin (fun _ => hfault _) hexit hdisp
  have hnull : ∀ (s : State) (i : ℕ), Q s.stdin →
      EnsuresOr (fun s => Q s.stdin) E (s.setSlot i none) :=
    fun s i => setSlot_stdin (fun _ => hfault _) s i none
  exact
    { toFrame := F
      read := fun h => hread _ h
      del := fun n flag h => F.comDel hnull h n flag
      exit := fun h => F.comExit hread (hfault _) hnull h }

end Input

end Xv6Editor
