import Xv6Editor.Rep.Loop
import Xv6Editor.Doc.Load

/-!
# The loader fills the text

The loader of `main` and the creation of a new file leave in memory the lines that `loadLines`
reads: `loadReads_rep` and `openFile_some`.  Nothing is in the undo log, and nothing is marked as
changed.
-/

namespace Xv6Editor

variable {zt : Prop} {s : State} {ps qs : List Ptr} {done log : List Line} {cur seg : Line}

/-! ### Appending to a line -/

theorem poke_pad {n : ℕ} {a t : List UInt8} (h : a.length + t.length < n) :
    poke (pad n a) a.length (t ++ [0]) = pad n (a ++ t) := by
  obtain ⟨k, hk⟩ : ∃ k, n - (a ++ t).length = k + 1 :=
    ⟨n - (a ++ t).length - 1, by simp; omega⟩
  have hd : n - a.length - (t.length + 1) = k := by simp at hk; omega
  rw [poke, pad, pad, hk, List.take_left, List.length_append, List.length_singleton,
    ← List.drop_drop, List.drop_left, List.drop_replicate, hd, List.replicate_succ]
  simp

theorem isLine_strcatN {b : Block 256} (hb : IsLine zt b cur) (hz : zt → 0 ∉ seg) :
    ∃ b', Block.ofBytes 256 (strcatN b.bytes seg seg.length) = some b' ∧
      IsLine zt b' (addSegment cur seg) := by
  obtain ⟨h0, hstr, hpad⟩ := hb
  have hlt := Block.length_str_lt h0
  have hcur : cstr b.bytes = cur := hstr
  rw [hstr] at hlt
  have hc := cstr_strcatN seg h0 seg.length
  have hl : (strcatN b.bytes seg seg.length).length = 256 := by
    simp only [strcatN, hcur]
    split_ifs with h1 h2
    · exact b.length_bytes
    · exact b.length_bytes
    · rw [length_poke, b.length_bytes]
      rw [b.length_bytes]
      simp
      omega
  refine ⟨⟨_, hl⟩, Block.ofBytes_of_length hl, zero_mem_strcatN seg h0 _, ?_, fun h => ?_⟩
  · change cstr _ = _
    rw [hc, hcur, List.take_length, addSegment]
  · change strcatN b.bytes seg seg.length = _
    simp only [strcatN, hcur, addSegment, cstr_eq_self (hz h), List.take_length]
    rw [hpad h]
    by_cases hs : seg = []
    · simp [hs]
    · rw [if_neg (by simpa using hs)]
      by_cases hfit : seg.length + cur.length < 256
      · rw [if_neg (by omega), if_pos hfit, poke_pad (by omega)]
      · rw [if_pos (by omega), if_neg hfit]

theorem Rep.appendSegment (seg : Line) (H : Rep zt s ps (done ++ [cur]) qs log)
    (hln : s.lineNumber = done.length) (hz : zt → 0 ∉ seg) :
    ∃ h, appendSegment s seg = .ok { s with heap := h } ∧
      Rep zt { s with heap := h } ps (done ++ [addSegment cur seg]) qs log := by
  obtain ⟨p, hp⟩ := H.exists_ptr (i := done.length) (by simp)
  obtain ⟨l, b, hl, hb, hbl⟩ := H.lines_holds.exists_block hp
  obtain rfl : cur = l := by simpa using hl
  obtain ⟨b', hb', hbl'⟩ := isLine_strcatN hbl hz
  obtain ⟨h, hs⟩ := Heap.exists_store hb b'
  have H' := H.store_line hp hs hbl'
  rw [List.set_append_right _ _ le_rfl, Nat.sub_self, List.set_cons_zero] at H'
  refine ⟨h, ?_, H'⟩
  have hblock : s.block p = .ok b := by simp only [State.block, hb]
  simp only [Xv6Editor.appendSegment, hln, Int.toNat_natCast, H.slotPtr_eq hp, strAt_eq hb hbl,
    hblock, bind, Except.bind, putBytes_eq hb' hs]

theorem Rep.newLine (H : Rep zt s ps (done ++ [cur]) qs log) (hln : s.lineNumber = done.length)
    (hk : done.length < 255) :
    ∃ t h ps', newLine s =
        .ok { s with text := t, heap := h, lineNumber := ((done ++ [cur]).length : ℕ) } ∧
      Rep zt { s with text := t, heap := h, lineNumber := ((done ++ [cur]).length : ℕ) } ps'
        (done ++ [cur] ++ [[]]) qs log := by
  have H₁ : Rep zt { s with lineNumber := ((done ++ [cur]).length : ℕ) } ps (done ++ [cur]) qs
      log := H.congr rfl rfl rfl rfl
  have hnext : s.lineNumber + 1 = ((done ++ [cur]).length : ℕ) := by simp [hln]
  obtain ⟨t, h₁, h₂, hset, -, hm, H₂⟩ := H₁.alloc_memset (by simp; omega)
  refine ⟨t, h₂, _, ?_, H₂⟩
  have hset' : State.setSlot
      (State.malloc { s with lineNumber := ((done ++ [cur]).length : ℕ) }).2
      (State.malloc { s with lineNumber := ((done ++ [cur]).length : ℕ) }).2.lineNumber.toNat
      (some (State.malloc { s with lineNumber := ((done ++ [cur]).length : ℕ) }).1) = _ := hset
  simp only [Xv6Editor.newLine, hnext, bind, Except.bind, hset', Int.toNat_natCast, hm]

/-! ### The loops -/

/-- The inner loop does on memory what `readBuf` does on lists. -/
theorem loadBuf_rep (seg cs : List UInt8) (H : Rep zt s ps (done ++ [cur]) qs log)
    (hln : s.lineNumber = done.length) (hk : done.length ≤ 255) (hz : zt → 0 ∉ seg ++ cs) :
    ∃ t h ps', loadBuf seg cs s = .ok ((readBuf done cur seg cs).1, { s with
        text := t, heap := h, lineNumber := ((readBuf done cur seg cs).2.1.length : ℕ) }) ∧
      Rep zt { s with
          text := t, heap := h, lineNumber := ((readBuf done cur seg cs).2.1.length : ℕ) } ps'
        ((readBuf done cur seg cs).2.1 ++ [(readBuf done cur seg cs).2.2]) qs log ∧
      (readBuf done cur seg cs).2.1.length ≤ 255 := by
  induction cs generalizing s ps done cur seg with
  | nil =>
    obtain ⟨h, ha, H'⟩ := H.appendSegment seg hln fun h => by simpa using hz h
    refine ⟨s.text, h, ps, ?_, H'.congr rfl rfl rfl rfl, hk⟩
    simp only [loadBuf, ha, bind, Except.bind, readBuf, ← hln]
  | cons c cs ih =>
    obtain ⟨h, ha, H'⟩ := H.appendSegment seg hln
      fun h h0 => hz h (List.mem_append_left _ h0)
    have hc0 : zt → 0 ∉ cs := fun h h0 => hz h (by simp [h0])
    by_cases hc : c = '\n'.toUInt8
    · by_cases hfull : done.length ≥ 255
      · -- the text is full
        refine ⟨s.text, h, ps, ?_, ?_⟩
        · rw [loadBuf, readBuf, if_pos hc, if_pos hc, if_pos hfull]
          simp only [ha, bind, Except.bind, ← hln]
          rw [if_pos (by omega)]
        · rw [readBuf, if_pos hc, if_pos hfull]
          exact ⟨H'.congr rfl rfl rfl rfl, hk⟩
      · obtain ⟨t, h₁, ps₁, hn, H₁⟩ := H'.newLine hln (by omega)
        rw [readBuf, if_pos hc, if_neg hfull, loadBuf, if_pos hc]
        simp only [ha, bind, Except.bind]
        rw [if_neg (by omega)]
        simp only [hn]
        -- a newline at the end of the buffer leaves nothing to append to the new line
        split_ifs with hcs
        · subst hcs
          exact ⟨t, h₁, ps₁, rfl, by simpa [readBuf, addSegment, cstr] using H₁,
            by simp [readBuf]; omega⟩
        · exact ih [] H₁ rfl (by simp; omega) (by simpa using hc0)
    · have hz' : zt → 0 ∉ seg ++ [c] ++ cs := by simpa using hz
      rw [loadBuf, readBuf, if_neg hc, if_neg hc]
      exact ih (seg ++ [c]) H hln hk hz'

/-- The loop over the reads does on memory what `readAll` does on lists. -/
theorem loadReads_rep (done : List Line) (cur : Line) (reads : List (List UInt8))
    (H : Rep zt s ps (done ++ [cur]) qs log) (hln : s.lineNumber = done.length)
    (hk : done.length ≤ 255) (hz : zt → 0 ∉ reads.flatten) :
    ∃ t h ps', loadReads reads s = .ok { s with
        text := t, heap := h, lineNumber := (readAll done cur reads).length - 1 } ∧
      Rep zt { s with text := t, heap := h, lineNumber := (readAll done cur reads).length - 1 } ps'
        (readAll done cur reads) qs log := by
  induction reads generalizing s ps done cur with
  | nil =>
    have hlen : ((readAll done cur []).length : ℤ) - 1 = s.lineNumber := by simp [readAll, hln]
    rw [hlen]
    exact ⟨s.text, s.heap, ps, rfl, H⟩
  | cons buf reads ih =>
    obtain ⟨t, h, ps₁, hb, H₁, hle⟩ := loadBuf_rep [] buf H hln hk
      fun h h0 => hz h (by simp at h0; simp [h0])
    rw [loadReads, readAll, hb]
    simp only [bind, Except.bind]
    rcases hr : readBuf done cur [] buf with ⟨_ | _, done', cur'⟩
    · rw [hr] at H₁ hle
      exact ih _ _ H₁ rfl hle fun h h0 => hz h (by simp [h0])
    · rw [hr] at H₁
      refine ⟨t, h, ps₁, ?_, ?_⟩
      · simp
      · simpa using H₁

theorem readAll_ne_nil (done : List Line) (cur : Line) (reads : List (List UInt8)) :
    readAll done cur reads ≠ [] := by
  induction reads generalizing done cur with
  | nil => simp [readAll]
  | cons buf reads ih =>
    rw [readAll]
    split
    · simp
    · exact ih _ _

theorem loadLines_ne_nil (reads : List (List UInt8)) : loadLines reads ≠ [] :=
  readAll_ne_nil _ _ _

/-! ### Opening -/

theorem boot_rep (zt : Prop) (b : Boot) : Rep zt b.state [] [] [] [] where
  text_eq := Vector.toList_replicate.trans (List.nil_append _).symm
  length_ps := by simp
  lines_holds := ⟨rfl, by simp⟩
  commands_eq := rfl
  length_qs := by simp
  upperBound_eq := rfl
  log_holds := ⟨rfl, by simp⟩
  nodup := List.nodup_nil

theorem Rep.firstLine (H : Rep zt s [] [] qs log) :
    ∃ t h ps, firstLine s = .ok { s with text := t, heap := h } ∧
      Rep zt { s with text := t, heap := h } ps [[]] qs log := by
  obtain ⟨t, h₁, h₂, hset, -, hm, H₁⟩ := H.alloc_memset (by simp)
  refine ⟨t, h₂, _, ?_, H₁⟩
  rw [List.length_nil] at hset hm
  simp only [Xv6Editor.firstLine, hset, hm, bind, Except.bind]

/-- The document in memory when a file has been opened: its lines, or one empty line in a new
file. -/
def Boot.doc (b : Boot) (reads : List (List UInt8)) : Doc where
  lines := match b.file with
    | some _ => loadLines reads
    | none => [[]]
  log := []
  changed := false
  stdin := b.stdin
  disk := match b.file with
    | some _ => ⟨b.file, b.answers⟩
    | none => (Disk.openCreate ⟨none, b.answers⟩).2
  page0 := b.page0

theorem Boot.lines_doc_some {b : Boot} {bs : List UInt8} (hf : b.file = some bs)
    (reads : List (List UInt8)) : (b.doc reads).lines = loadLines reads := by
  rw [Boot.doc, hf]

theorem Boot.lines_doc_none {b : Boot} (hf : b.file = none) (reads : List (List UInt8)) :
    (b.doc reads).lines = [[]] := by
  rw [Boot.doc, hf]

theorem openFile_some {b : Boot} {bs : List UInt8} {reads : List (List UInt8)}
    (hf : b.file = some bs) (hz : zt → 0 ∉ reads.flatten) :
    ∃ s, openFile b reads = .ok s ∧ Abs zt s (b.doc reads) ∧ s.autoShow = true := by
  obtain ⟨t, h, ps, hfl, H⟩ := (boot_rep zt b).firstLine
  obtain ⟨t', h', ps', hl, H'⟩ := loadReads_rep [] [] reads H rfl
    (by simp) hz
  have hlines : (b.doc reads).lines = readAll [] [] reads := Boot.lines_doc_some hf reads
  have hdisk : (b.doc reads).disk = ⟨b.file, b.answers⟩ := by rw [Boot.doc, hf]
  rw [← hlines] at H' hl
  refine ⟨_, by simp only [openFile, hfl, hf, bind, Except.bind, hl]; rfl, ?_⟩
  exact ⟨{ rep := ⟨ps', [], H'⟩, changed_eq := rfl, stdin_eq := rfl, disk_eq := hdisk.symm,
           page0_eq := rfl, lineNumber_eq := rfl }, rfl⟩

/-- Creating a new file: it may fail, and then the editor exits. -/
theorem openFile_none (zt : Prop) {b : Boot} (reads : List (List UInt8)) (hf : b.file = none) :
    (∃ s, openFile b reads = .ok s ∧ Abs zt s (b.doc reads)) ∨
      (Disk.openCreate ⟨none, b.answers⟩).1 = false ∧
        ∃ s, openFile b reads = .error (.exited s) := by
  obtain ⟨t, h, ps, hfl, H⟩ := (boot_rep zt b).firstLine
  have hlines := Boot.lines_doc_none hf reads
  have hdisk : (b.doc reads).disk = (Disk.openCreate ⟨none, b.answers⟩).2 := by rw [Boot.doc, hf]
  have hopen : ∀ s : State, s.openCreate =
      (s.disk.openCreate.1, { s with disk := s.disk.openCreate.2 }) := fun _ => rfl
  have hd : b.state.disk = ⟨none, b.answers⟩ := by rw [Boot.state, hf]
  cases hok : (Disk.openCreate ⟨none, b.answers⟩).1 with
  | false =>
    exact .inr ⟨rfl, _, by
      simp only [openFile, hfl, hf, bind, Except.bind, comCreateNewFile, hopen, hd, hok]
      rfl⟩
  | true =>
    refine .inl ⟨_, by
      simp only [openFile, hfl, hf, bind, Except.bind, comCreateNewFile, hopen, hd, hok]
      rfl, ?_⟩
    rw [← hlines] at H
    exact { rep := ⟨ps, [], H.congr rfl rfl rfl rfl⟩, changed_eq := rfl, stdin_eq := rfl,
            disk_eq := hdisk.symm, page0_eq := rfl, lineNumber_eq := by rw [hlines]; rfl }

variable {disp : Display}

theorem Boot.doc_lines_ne (b : Boot) (reads : List (List UInt8)) : (b.doc reads).lines ≠ [] := by
  cases hf : b.file with
  | none => simp [b.lines_doc_none hf]
  | some bs => exact b.lines_doc_some hf reads ▸ loadLines_ne_nil reads

/-- `main` comes to its first prompt with the opened document in memory, or ends in the display of
it, or exits because the file cannot be created. -/
theorem main_endsIn (disp : Display) (b : Boot) (reads : List (List UInt8))
    (hz : zt → ∀ bs, b.file = some bs → 0 ∉ reads.flatten) :
    EndsIn disp (TextOf zt (b.doc reads)) (Abs zt · (b.doc reads)) (main disp b reads) ∨
      ∃ s, main disp b reads = .error (.exited s) := by
  unfold main
  cases hf : b.file with
  | some bs =>
    obtain ⟨s, ho, A, -⟩ := openFile_some hf fun h => hz h bs hf
    rw [ho]
    exact .inl (.autoDisplay A.rep (fun out => A.print out) A)
  | none =>
    obtain ⟨s, ho, A⟩ | ⟨-, s, ho⟩ := openFile_none zt reads hf
    · rw [ho]
      exact .inl (.ok A)
    · rw [ho]
      exact .inr ⟨s, rfl⟩

/-- The opened document is in memory at the first prompt. -/
theorem Abs.of_main {b : Boot} {reads : List (List UInt8)} {s : State}
    (hz : zt → ∀ bs, b.file = some bs → 0 ∉ reads.flatten) (hm : main disp b reads = .ok s) :
    Abs zt s (b.doc reads) := by
  obtain hE | ⟨e, he⟩ := main_endsIn disp b reads hz
  · exact hE.of_ok hm
  · cases hm.symm.trans he

end Xv6Editor
