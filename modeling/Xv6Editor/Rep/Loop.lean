import Xv6Editor.Rep.Commands

/-!
# Rounds of the command loop

`Abs.exec` says for every command that the code makes of its memory what `Doc.exec` makes of the
document, and `Abs.promptStep` says so for a whole round, with the reading and parsing of the
command line.  `Mem.comSave` is about `com_save` on its own: it is also called by `com_exit`.
-/

namespace Xv6Editor

variable {disp : Display} {zt zt' : Prop} {s s' : State} {d d' : Doc} {ps qs : List Ptr}
  {ls log : List Line} {r : Except Halt State}

/-! ### Saving -/

theorem Disk.writes_append (as bs : List (List UInt8)) (off : ℕ) (k : Disk) :
    Disk.writes (as ++ bs) off k =
      Disk.writes bs (Disk.writes as off k).1 (Disk.writes as off k).2 := by
  induction as generalizing off k with
  | nil => rfl
  | cons a as ih => exact ih _ _

theorem saveBody_eq {p : Ptr} {b : Block 256} {l : Line} (hb : s.heap.get p = some b)
    (hl : IsLine zt b l) (off : ℕ) :
    saveBody p (off, s) = .ok ((Disk.writes [bytesOf "\n", l] off s.disk).1,
      { s with disk := (Disk.writes [bytesOf "\n", l] off s.disk).2 }) := by
  have hstr : (s.write off (bytesOf "\n")).2.strAt p 0 = .ok l := strAt_eq hb hl
  simp only [saveBody, hstr, bind, Except.bind]
  rfl

theorem Rep.saveLoop {p₀ : Ptr} {l₀ : Line} (H : Rep zt s (p₀ :: ps) (l₀ :: ls) qs log)
    (hk : ls.length ≤ 254) :
    scanSlots (fun _ p a => saveBody p a) (s.text.toList.drop 1) 1 (s.write 0 l₀) =
      .ok ((Disk.writes (saveChunks (l₀ :: ls)) 0 s.disk).1,
        { s with disk := (Disk.writes (saveChunks (l₀ :: ls)) 0 s.disk).2 }) := by
  have hlen : ps.length = ls.length := by simpa using H.length_eq
  -- after `i` rounds the first `i + 1` lines have been written
  let W : ℕ → ℕ × Disk := fun i =>
    Disk.writes (l₀ :: (ls.take i).flatMap fun l => [bytesOf "\n", l]) 0 s.disk
  have hW : ∀ i l, ls[i]? = some l →
      W (i + 1) = Disk.writes [bytesOf "\n", l] (W i).1 (W i).2 := by
    intro i l hl
    simp only [W]
    rw [List.take_add_one, hl, Option.toList_some, List.flatMap_append, List.flatMap_singleton,
      ← List.cons_append, Disk.writes_append]
  have hscan := scanSlots_rule (fun _ p a => saveBody p a) (fun _ => False)
    (k := 255 - ps.length) (by omega) ps
    (I := fun i a => a = ((W i).1, { s with disk := (W i).2 })) (j := 1) (a := s.write 0 l₀) rfl
    fun i p a hp ha => by
      obtain ⟨l, b, hl, hb, hbl⟩ := H.lines_holds.exists_block (i := i + 1) (p := p) hp
      rw [ha]
      refine .inl ⟨_, saveBody_eq (s := { s with disk := (W i).2 }) hb hbl _, ?_⟩
      rw [hW i l hl]
  obtain ⟨a, ha, rfl⟩ | ⟨e, -, he⟩ := hscan
  · rw [H.text_eq, slots, List.map_cons, List.cons_append, List.drop_one, List.tail_cons,
      List.length_cons, show 256 - (ps.length + 1) = 255 - ps.length by omega, ha]
    simp only [W, hlen, List.take_length]
    rfl
  · exact he.elim

theorem Mem.withDisk (M : Mem zt s d) (k : Disk) :
    Mem zt { s with disk := k } { d with disk := k } := by
  obtain ⟨ps, qs, H⟩ := M.rep
  exact { M with rep := ⟨ps, qs, H.congr rfl rfl rfl rfl⟩, disk_eq := rfl }

theorem Mem.withStdin (M : Mem zt s d) (st : List UInt8) :
    Mem zt { s with stdin := st } { d with stdin := st } := by
  obtain ⟨ps, qs, H⟩ := M.rep
  exact { M with rep := ⟨ps, qs, H.congr rfl rfl rfl rfl⟩, stdin_eq := rfl }

theorem Mem.saved (M : Mem zt s d) (k : Disk) (out : List Piece) :
    Mem zt { s with disk := k, console := out, changed := false }
      { d with disk := k, changed := false } := by
  obtain ⟨ps, qs, H⟩ := M.rep
  exact { M with rep := ⟨ps, qs, H.congr rfl rfl rfl rfl⟩, changed_eq := rfl, disk_eq := rfl }

theorem Mem.comSave_exits (M : Mem zt s d) (h : d.disk.unlink.openCreate.1 = false) :
    ∃ s', comSave s = .error (.exited s') ∧
      Mem zt s' { d with disk := d.disk.unlink.openCreate.2 } := by
  rw [← M.disk_eq] at h ⊢
  have hopen : s.unlink.openCreate =
    (s.disk.unlink.openCreate.1, { s with disk := s.disk.unlink.openCreate.2 }) := rfl
  rw [Xv6Editor.comSave, hopen, h]
  exact ⟨_, rfl, (M.withDisk _).print _⟩

/-- `com_save`: it exits if the file cannot be opened. -/
theorem Mem.comSave (M : Mem zt s d) (h0 : d.lines ≠ []) (hk : d.lines.length ≤ 255) :
    match d.save with
    | none => ∃ s', comSave s = .error (.exited s') ∧
        Mem zt s' { d with disk := d.disk.unlink.openCreate.2 }
    | some d' => ∃ s', comSave s = .ok s' ∧ Mem zt s' d' ∧ s'.lineNumber = s.lineNumber := by
  unfold Doc.save
  cases hok : d.disk.unlink.openCreate.1 with
  | false =>
    rw [if_neg (by simp)]
    exact M.comSave_exits hok
  | true =>
    rw [← M.disk_eq] at hok ⊢
    have hopen : s.unlink.openCreate =
      (s.disk.unlink.openCreate.1, { s with disk := s.disk.unlink.openCreate.2 }) := rfl
    have M₁ := M.withDisk s.disk.unlink.openCreate.2
    obtain ⟨ps, qs, H⟩ := M₁.rep
    obtain ⟨l₀, ls, hls⟩ := List.exists_cons_of_ne_nil h0
    simp only [hls] at H hk
    obtain ⟨p₀, ps, rfl⟩ : ∃ p ps', ps = p :: ps' :=
      List.exists_cons_of_length_eq_add_one H.length_eq
    have hstr := H.strAt_line (i := 0) rfl rfl
    have hslot := H.slot_eq (i := 0) (by omega)
    have hloop := H.saveLoop (Nat.le_of_succ_le_succ hk)
    rw [← hls] at hloop
    rw [if_pos rfl, Xv6Editor.comSave, hopen, hok]
    simp only [hslot, List.getElem?_cons_zero, hstr, hloop, bind, Except.bind]
    exact ⟨_, rfl, M.saved _ _, rfl⟩

/-! ### One command -/

theorem Mem.mono (M : Mem zt s d) (h : zt' → zt) : Mem zt' s d := by
  obtain ⟨ps, qs, H⟩ := M.rep
  exact { M with rep := ⟨ps, qs, H.mono h⟩ }

theorem Abs.mono (A : Abs zt s d) (h : zt' → zt) : Abs zt' s d :=
  { A.toMem.mono h with lineNumber_eq := A.lineNumber_eq }

theorem Reaches.mono {o : Option Doc} (R : Reaches disp zt o r) (h : zt' → zt) :
    Reaches disp zt' o r := by
  cases o with
  | none => exact R
  | some d =>
    exact EndsIn.imp R (fun s ⟨ps, qs, H⟩ => ⟨ps, qs, H.mono h⟩) fun s A => A.mono h

theorem Abs.print (A : Abs zt s d) (out : List Piece) : Abs zt (s.print out) d :=
  { A.toMem.print out with lineNumber_eq := A.lineNumber_eq }

theorem Reaches.print (A : Abs zt s d) (out : List Piece) :
    Reaches disp zt (some d) (.ok (s.print out)) :=
  .ok (A.print out)

/-- `com_init_file`; the new blocks are not cleared. -/
theorem Mem.comInitFile (M : Mem zt s d) (hk : d.lines.length ≤ 255) :
    Reaches disp False (some d.init) (comInitFile disp s) := by
  obtain ⟨ps, qs, H⟩ := M.rep
  obtain ⟨t, h, ps', hi, H'⟩ := (H.mono False.elim).initShift (i := 0) initText
    (by omega) (by rw [length_initText]; omega) fun l hl => (initText_spec l hl).1
  have hlines : d.lines.take 0 ++ initText ++ d.lines.drop (0 + initText.length) =
      initLines d.lines := by simp [initLines]
  rw [hlines] at H'
  have hln := H'.getLineNumber_eq
  simp only [Xv6Editor.comInitFile, hi, bind, Except.bind]
  cases hd : disp (Xv6Editor.updateLineNumber { s with text := t, heap := h }) with
  | error e =>
    exact .inr ⟨Xv6Editor.updateLineNumber { s with text := t, heap := h }, e,
      ⟨ps', qs, H'.congr rfl rfl rfl rfl⟩, hd, rfl⟩
  | ok out =>
    exact .ok
      { rep := ⟨ps', qs, H'.congr rfl rfl rfl rfl⟩, changed_eq := rfl, stdin_eq := M.stdin_eq,
        disk_eq := M.disk_eq, page0_eq := M.page0_eq, lineNumber_eq := hln }

/-! ### Leaving -/

theorem Doc.save_lines (h : d.save = some d') : d'.lines = d.lines := by
  unfold Doc.save at h
  split_ifs at h
  cases h
  rfl

theorem Disk.answers_writes {k : Disk} (h : k.answers = []) (ds : List (List UInt8)) (off : ℕ) :
    (Disk.writes ds off k).2.answers = [] := by
  induction ds generalizing off k with
  | nil => exact h
  | cons d ds ih => exact ih (by simp only [Disk.write, Disk.answer, h]) _

/-- With a kernel that serves every call `save` succeeds, and the kernel goes on doing so. -/
theorem Doc.save_served (d : Doc) (h : d.disk.answers = []) :
    ∃ d', d.save = some d' ∧ d'.disk.answers = [] := by
  have hopen : d.disk.unlink.openCreate = (true, ⟨some [], []⟩) := by
    simp only [Disk.unlink, Disk.openCreate, Disk.answer, h, Option.getD_none]
  refine ⟨_, by rw [Doc.save, hopen, if_pos rfl], ?_⟩
  exact Disk.answers_writes rfl _ _

theorem Doc.answers_save (hd : d.save = some d') (h : d.disk.answers = []) :
    d'.disk.answers = [] := by
  obtain ⟨d'', hd', ha⟩ := d.save_served h
  cases hd.symm.trans hd'
  exact ha

theorem Mem.askSave (fuel : ℕ) (M : Mem zt s d) (h0 : d.lines ≠ []) (hk : d.lines.length ≤ 255) :
    match d.askSave fuel with
    | none => ∃ e, askSave fuel s = .error e ∧ e.IsLast ∧
        (d.disk.answers = [] → e = .fault (.inputIndex (-1)))
    | some d' => ∃ s', askSave fuel s = .ok s' ∧ Mem zt s' d' ∧ d'.lines = d.lines := by
  induction fuel generalizing s d with
  | zero => exact ⟨_, rfl, .inl rfl, fun _ => rfl⟩
  | succ fuel ih =>
    rw [Doc.askSave, Xv6Editor.askSave, M.changed_eq]
    cases d.changed with
    | false => exact ⟨s, rfl, M, rfl⟩
    | true =>
      simp only [if_true, getLine_eq, M.print_stdin, Doc.getLine]
      split_ifs with hg
      · exact ⟨_, rfl, .inl rfl, fun _ => rfl⟩
      · have M₁ : Mem zt { s.print saveQuestion with stdin := (gets d.stdin).2 }
            { d with stdin := (gets d.stdin).2 } := (M.print saveQuestion).withStdin _
        simp only [Option.bind_some, bind, Except.bind]
        split_ifs with hy hn
        · have hsave := M₁.comSave h0 hk
          cases hd : Doc.save { d with stdin := (gets d.stdin).2 } with
          | none =>
            rw [hd] at hsave
            obtain ⟨s', hs, -⟩ := hsave
            rw [hs]
            refine ⟨_, rfl, .inr ⟨_, rfl⟩, fun ha => ?_⟩
            obtain ⟨d', hd', -⟩ := Doc.save_served { d with stdin := (gets d.stdin).2 } ha
            cases hd.symm.trans hd'
          | some d' =>
            rw [hd] at hsave
            obtain ⟨s', hs, M₂, -⟩ := hsave
            have hl : d'.lines = d.lines := (Doc.save_lines hd :)
            rw [hs]
            have := ih M₂ (hl ▸ h0) (hl ▸ hk)
            rw [hl] at this
            simp only [Option.bind_some]
            cases hask : d'.askSave fuel with
            | none =>
              rw [hask] at this
              obtain ⟨e, he, hin, hfault⟩ := this
              exact ⟨e, he, hin, fun ha => hfault (Doc.answers_save hd ha)⟩
            | some d'' =>
              rw [hask] at this
              exact this
        · exact ⟨_, rfl, M₁, rfl⟩
        · exact ih (M₁.print _) h0 hk

theorem Rep.freeLines (H : Rep zt s ps ls qs log) (hk : ls.length ≤ 255) :
    ∃ s', scanSlots (fun i p (s : State) => do (← s.free p).setSlot i none) s.text.toList 0 s =
      .ok s' ∧ s'.disk = s.disk ∧ s'.stdin = s.stdin := by
  have hlen := H.length_eq
  -- the blocks of the lines to come are still in use
  have hscan := scanSlots_rule
    (fun i p (s : State) => do (← s.free p).setSlot i none) (fun _ => False)
    (k := 256 - ps.length) (by omega) ps
    (I := fun i a => (∀ q ∈ ps.drop i, (a.heap.get q).isSome) ∧ a.disk = s.disk ∧
      a.stdin = s.stdin) (j := 0) (a := s)
    ⟨fun q hq => H.lines_holds.isSome (List.mem_of_mem_drop hq), rfl, rfl⟩
    fun i p a hp ⟨ha, hrest⟩ => by
      obtain ⟨hi, hpi⟩ := List.getElem?_eq_some_iff.1 hp
      have hdrop : ps.drop i = p :: ps.drop (i + 1) := by rw [← hpi, List.drop_eq_getElem_cons hi]
      obtain ⟨b, hb⟩ := Option.isSome_iff_exists.1 (ha p (by rw [hdrop]; simp))
      obtain ⟨h, hf⟩ := Heap.exists_free hb
      have hfree : a.free p = .ok { a with heap := h } := by simp [State.free, hf]
      refine .inl ⟨{ a with heap := h, text := a.text.set i none (by omega) }, ?_,
        fun q hq => ?_, hrest⟩
      · simp only [hfree, bind, Except.bind, Nat.zero_add]
        exact setSlot_eq (by omega) _
      · have hne : q ≠ p := by
          have hnd := H.nodup_ps.sublist (List.drop_sublist i ps)
          rw [hdrop] at hnd
          exact ne_of_mem_of_not_mem hq (List.nodup_cons.1 hnd).1
        rw [Heap.get_free_of_ne hf hne]
        exact ha q (by rw [hdrop]; exact List.mem_cons_of_mem _ hq)
  obtain ⟨a, ha, -, hrest⟩ | ⟨e, -, he⟩ := hscan
  · rw [H.text_eq, slots]
    exact ⟨a, ha, hrest⟩
  · exact he.elim

/-- The content in a command is a string that fits into a buffer. -/
def Command.Fits (c : Command) : Prop := 0 ∉ c.extra ∧ c.extra.length < 256

instance (c : Command) : Decidable c.Fits := inferInstanceAs (Decidable (_ ∧ _))

/-- `com_exit` never returns. -/
theorem Mem.comExit (M : Mem zt s d) (h0 : d.lines ≠ []) (hk : d.lines.length ≤ 255) :
    match d.askSave (d.stdin.length + 1) with
    | none => ∃ e, comExit s = .error e ∧ e.IsLast ∧
        (d.disk.answers = [] → e = .fault (.inputIndex (-1)))
    | some d' => ∃ s', comExit s = .error (.exited s') ∧ s'.disk = d'.disk ∧
        s'.stdin = d'.stdin := by
  have hask := M.askSave (d.stdin.length + 1) h0 hk
  rw [← M.stdin_eq] at hask ⊢
  unfold Xv6Editor.comExit
  cases hd : d.askSave (s.stdin.length + 1) with
  | none =>
    rw [hd] at hask
    obtain ⟨e, he, hin⟩ := hask
    rw [he]
    exact ⟨e, rfl, hin⟩
  | some d' =>
    rw [hd] at hask
    obtain ⟨s', hs, M', hl⟩ := hask
    obtain ⟨ps, qs, H⟩ := M'.rep
    obtain ⟨s'', hf, hdisk, hstdin⟩ := H.freeLines (hl ▸ hk)
    rw [hs]
    simp only [bind, Except.bind] at hf ⊢
    rw [hf]
    exact ⟨s'', rfl, hdisk.trans M'.disk_eq, hstdin.trans M'.stdin_eq⟩

/-! ### Every command -/

theorem Computes.reaches {ln : ℤ} {o : Option Doc} (h : Computes disp zt ln o r)
    (hl : ∀ d, o = some d → ln = d.lines.length - 1) : Reaches disp zt o r := by
  cases o with
  | none =>
    rw [show r = _ from h]
    exact ⟨_, rfl, .inl rfl⟩
  | some d =>
    exact EndsIn.imp h (fun _ => id) fun s hs =>
      { hs.1 with lineNumber_eq := hs.2.trans (hl d rfl) }

theorem Doc.mod_length {n : ℤ} {extra : Line} {flag : Bool} (h : d.mod n extra flag = some d') :
    d'.lines.length = d.lines.length := by
  unfold Doc.mod Doc.readContent Doc.getLine at h
  split_ifs at h <;> cases h <;> simp [Doc.replace]

/-- `auto_show` does not matter to what is in memory. -/
theorem Abs.withAutoShow (A : Abs zt s d) (b : Bool) : Abs zt { s with autoShow := b } d := by
  obtain ⟨ps, qs, H⟩ := A.rep
  exact { A with rep := ⟨ps, qs, H.congr rfl rfl rfl rfl⟩ }

theorem Abs.exec (disp : Display) {c : Command} (A : Abs zt s d) (h0 : d.lines ≠ [])
    (hk : d.lines.length ≤ 255) (hc : c.Fits)
    (hr : c = .rb → ∀ r, d.log.getLast? = some r → IsRecord r) :
    Reaches disp (zt ∧ c ≠ .init) (d.exec c) (exec disp c s) := by
  cases c with
  | ins n extra => exact (A.comIns h0 hk hc.1 hc.2 n).updateLineNumber.mono And.left
  | mod n extra =>
    refine ((A.comMod hc.1 hc.2 n true).reaches fun d' hd => ?_).mono And.left
    rw [A.lineNumber_eq, Doc.mod_length hd]
  | del n => exact (A.comDel hk n true).updateLineNumber.mono And.left
  | «show» => exact (Reaches.print (A.withAutoShow true) _).mono And.left
  | hide => exact (Reaches.print (A.withAutoShow false) _).mono And.left
  | rb => exact (A.comRollback hk (hr rfl)).mono And.left
  | help => exact (Reaches.print A _).mono And.left
  | save =>
    have hsave := A.comSave h0 hk
    change Reaches disp _ d.save (comSave s)
    cases hd : d.save with
    | none =>
      rw [hd] at hsave
      obtain ⟨s', hs, -⟩ := hsave
      exact ⟨_, hs, .inr ⟨_, rfl⟩⟩
    | some d' =>
      rw [hd] at hsave
      obtain ⟨s', hs, M, hl⟩ := hsave
      rw [hs]
      refine .ok { M.mono And.left with lineNumber_eq := ?_ }
      rw [hl, A.lineNumber_eq, Doc.save_lines hd]
  | exit =>
    have hexit := A.comExit h0 hk
    cases hd : d.askSave (d.stdin.length + 1) with
    | none =>
      rw [hd] at hexit
      obtain ⟨e, he, hin, -⟩ := hexit
      exact ⟨e, he, hin⟩
    | some d' =>
      rw [hd] at hexit
      obtain ⟨s', hs, -⟩ := hexit
      exact ⟨_, hs, .inr ⟨_, rfl⟩⟩
  | demo => exact (Reaches.print A _).mono And.left
  -- its blocks are not cleared, so that nothing is known of what is behind the strings
  | init => exact (A.comInitFile hk).mono fun h => h.2 rfl
  | disp =>
    change Reaches disp _ (some d) (disp s >>= fun out => .ok (s.print out))
    cases hd : disp s with
    | error e => exact .inr ⟨s, e, (A.mono And.left).rep, hd, rfl⟩
    | ok out => exact .ok ((A.mono And.left).print out)
  | normaldisp =>
    obtain ⟨ps, qs, H⟩ := A.rep
    obtain ⟨out, ho⟩ := H.showText hk
    change Reaches disp _ (some d) (showText s >>= fun out => .ok (s.print out))
    rw [ho]
    exact .ok ((A.mono And.left).print out)
  | invalid => exact (Reaches.print A _).mono And.left

/-! ### One round -/

theorem findSpace_pos (bound : ℕ) (input : List UInt8) : 1 ≤ findSpace bound input := by
  unfold findSpace
  split <;> omega

theorem parse_fits (ln : ℤ) {input : List UInt8} (h : input.length = 256) :
    (parse ln input).Fits := by
  unfold Command.Fits
  obtain hx | hx := parse_extra ln input <;> rw [hx]
  · simp
  · refine ⟨zero_notMem_cstr _, ?_⟩
    have h1 := (cstr_sublist (input.drop (findSpace 8 input))).length_le
    have h2 := findSpace_pos 8 input
    rw [List.length_drop] at h1
    omega

theorem length_inputBuffer (inp : List UInt8) : (inputBuffer (gets inp).1).length = 256 := by
  have := length_gets_le inp
  rw [inputBuffer, List.length_set, length_pad (by omega)]

theorem Doc.command_fits (d : Doc) : d.command.Fits := parse_fits _ (length_inputBuffer _)

/-- One round of the command loop does to memory what `Doc.step` does to the document. -/
theorem Abs.promptStep (disp : Display) (A : Abs zt s d) (h0 : d.lines ≠ [])
    (hk : d.lines.length ≤ 255) (hr : ∀ r, d.log.getLast? = some r → IsRecord r) :
    Reaches disp (zt ∧ d.command ≠ .init) d.step (promptStep disp s) := by
  have hcmd : d.command = parse s.lineNumber (inputBuffer (gets s.stdin).1) := by
    rw [Doc.command, A.stdin_eq, A.lineNumber_eq]
  rw [promptStep_eq, ← hcmd, A.stdin_eq, Doc.step]
  split_ifs with hg
  · exact ⟨_, rfl, .inl rfl⟩
  · have A₁ : Abs zt (State.print { s with stdin := (gets d.stdin).2 } _)
        { d with stdin := (gets d.stdin).2 } :=
      { (A.toMem.withStdin _).print [.lit ">>> ", .sgr [1, 33], .sgr [0]] with
        lineNumber_eq := A.lineNumber_eq }
    exact A₁.exec disp h0 hk d.command_fits fun _ => hr

end Xv6Editor
