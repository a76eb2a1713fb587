import Xv6Editor.Files.Save

/-!
# Saving and opening

* `openFile_splits` : a file is split at its newlines, however it is cut into reads.
* `save_reopen` : what `save` writes is read back as the same lines, however the file is cut into
  reads.
* `open_save_iff` : the files that survive being opened and saved.
-/

namespace Xv6Editor

variable {zt : Prop} {s : State} {d : Doc} {b : Boot} {bs : List UInt8}
  {reads : List (List UInt8)}

theorem Mem.comSave_served (M : Mem zt s d) (h0 : d.lines ≠ []) (hk : d.lines.length ≤ 255)
    (ha : d.disk.answers = []) :
    ∃ s', Xv6Editor.comSave s = .ok s' ∧ s'.disk.file = some (joinLines d.lines) := by
  have hsave := M.comSave h0 hk
  rw [Doc.save_eq M.lines_short hk, ha,
    if_pos (show ([] : List Answer).tail.headD .done = .done from rfl)] at hsave
  obtain ⟨s', hs, M', -⟩ := hsave
  exact ⟨s', hs, by rw [M'.disk_eq, savedBytes_of_served ha]⟩

/-! ### Opening -/

theorem subset_joinLines {ls : List Line} {l : Line} (h : l ∈ ls) : l ⊆ joinLines ls := by
  induction ls with
  | nil => cases h
  | cons x ls ih =>
    cases ls with
    | nil =>
      rw [List.mem_singleton.1 h, joinLines_singleton]
      exact List.Subset.refl x
    | cons y ls =>
      rw [joinLines_cons_cons]
      obtain rfl | h := List.mem_cons.1 h
      · exact List.subset_append_left ..
      · exact fun b hb => List.mem_append_right _ (List.mem_cons_of_mem _ (ih h hb))

theorem length_splitOn (bs : List UInt8) :
    (bs.splitOn '\n'.toUInt8).length = bs.count '\n'.toUInt8 + 1 := by
  have h := count_joinLines (noNewline_splitOn bs) (List.splitOn_ne_nil '\n'.toUInt8 bs)
  rw [joinLines_splitOn] at h
  exact h.symm

/-- The loader splits a file at its newlines, if every piece fits into a line. -/
theorem loadLines_eq_splitOn (h0 : 0 ∉ reads.flatten)
    (hcount : reads.flatten.count '\n'.toUInt8 ≤ 255)
    (hl : ∀ l ∈ reads.flatten.splitOn '\n'.toUInt8, l.length ≤ 255) :
    loadLines reads = reads.flatten.splitOn '\n'.toUInt8 := by
  have hlen := length_splitOn reads.flatten
  have hspec : ∀ l ∈ reads.flatten.splitOn '\n'.toUInt8, 0 ∉ l ∧ l.length < 256 := by
    intro l h
    refine ⟨fun hz => h0 ?_, Nat.lt_succ_of_le (hl l h)⟩
    have := subset_joinLines h hz
    rwa [joinLines_splitOn] at this
  exact loadLines_joinLines (noNewline_splitOn _) hspec (by omega) (List.splitOn_ne_nil _ _)
    (joinLines_splitOn _).symm

/-- A file without NULs, with at most 255 newlines and at most 255 bytes in every line, is split at
its newlines, however it is cut into reads. -/
theorem openFile_splits (hf : b.file = some bs) (hc : Cuts bs reads) (h0 : 0 ∉ bs)
    (hcount : bs.count '\n'.toUInt8 ≤ 255)
    (hl : ∀ l ∈ bs.splitOn '\n'.toUInt8, l.length ≤ 255) :
    ∃ s, openFile b reads = .ok s ∧ s.lineNumber = bs.count '\n'.toUInt8 ∧
      HasText s (bs.splitOn '\n'.toUInt8) := by
  obtain ⟨s, ho, A, -⟩ : ∃ s, openFile b reads = .ok s ∧ Abs False s _ ∧ _ :=
    openFile_some hf False.elim
  obtain ⟨rfl, -⟩ := hc
  have hlines : (b.doc reads).lines = _ :=
    (Boot.lines_doc_some hf reads).trans (loadLines_eq_splitOn h0 hcount hl)
  have hnum := A.lineNumber_eq
  have htext := A.hasText
  rw [hlines, length_splitOn] at hnum
  rw [hlines] at htext
  exact ⟨s, ho, by omega, htext⟩

theorem openFile_splits_session : ∃ s,
    openFile (.session (some (bytesOf "ab\n\nc")) []) [bytesOf "a", bytesOf "b\n", bytesOf "\nc"] =
      .ok s ∧ s.lineNumber = 2 ∧ HasText s [bytesOf "ab", [], bytesOf "c"] := by
  obtain ⟨s, ho, hn, ht⟩ := openFile_splits (b := .session (some (bytesOf "ab\n\nc")) []) rfl
    (show Cuts _ [bytesOf "a", bytesOf "b\n", bytesOf "\nc"] by decide) (by decide) (by decide)
    (by decide)
  exact ⟨s, ho, hn, ht⟩

/-! ### Saving and opening again -/

/-- Save a text without newlines in its lines, and open the file again: the lines are the same.
The file is not too large for the file system. -/
theorem save_reopen {k : ℕ} (R : RepInv s k) (hn : NoNewline s.lines)
    (ha : s.disk.answers = []) :
    (joinLines s.lines).length ≤ Disk.maxFileSize ∧
    ∃ s', comSave s = .ok s' ∧ s'.disk.file = some (joinLines s.lines) ∧
      ∀ b reads, b.file = s'.disk.file → Cuts (joinLines s.lines) reads →
        ∃ s'', openFile b reads = .ok s'' ∧ s''.lines = s.lines := by
  obtain ⟨d, A, rfl⟩ := R.abs
  have h0 : d.lines ≠ [] := List.ne_nil_of_length_pos R.one_le
  have hl : ∀ l ∈ d.lines, 0 ∉ l ∧ l.length < 256 := by
    obtain ⟨ps, qs, H⟩ := A.rep
    exact fun l hl => H.line_spec hl
  rw [A.disk_eq] at ha
  rw [A.lines_eq] at hn ⊢
  obtain ⟨s', hs, hf⟩ := A.comSave_served h0 R.le ha
  refine ⟨length_joinLines_le (fun l h => (hl l h).2) R.le, s', hs, hf, fun b reads hb hc => ?_⟩
  obtain ⟨s'', ho, A', -⟩ : ∃ s, openFile b reads = .ok s ∧ Abs False s _ ∧ _ :=
    openFile_some (hb.trans hf) False.elim
  refine ⟨s'', ho, ?_⟩
  rw [A'.lines_eq, Boot.lines_doc_some (hb.trans hf)]
  exact loadLines_joinLines hn hl (R.le.trans (by decide)) h0 hc.1

theorem save_reopen_session : ∃ s, s.lines = [bytesOf "a", []] ∧
    (joinLines s.lines).length ≤ Disk.maxFileSize ∧
    ∃ s', comSave s = .ok s' ∧ s'.disk.file = some (joinLines s.lines) ∧
      ∀ b reads, b.file = s'.disk.file → Cuts (joinLines s.lines) reads →
        ∃ s'', openFile b reads = .ok s'' ∧ s''.lines = s.lines := by
  obtain ⟨s, A⟩ := exists_session False (bytesOf "a\n") [] False.elim
  have hl : s.lines = [bytesOf "a", []] := A.lines_eq.trans (by decide)
  have hn : NoNewline s.lines := by
    rw [hl]
    unfold NoNewline
    decide
  exact ⟨s, hl, save_reopen (A.repInv (by decide) (by decide)) hn (congrArg Disk.answers A.disk_eq)⟩

/-! ### Opening and saving again -/

/-- The files that are read without a loss. -/
theorem joinLines_loadLines_iff (reads : List (List UInt8))
    (hl : ∀ l ∈ loadLines reads, 0 ∉ l ∧ l.length < 256)
    (hcount : reads.flatten.count '\n'.toUInt8 ≤ 255) :
    joinLines (loadLines reads) = reads.flatten ↔
      0 ∉ reads.flatten ∧ ∀ l ∈ reads.flatten.splitOn '\n'.toUInt8, l.length ≤ 255 := by
  constructor
  · intro h
    rw [← h, splitOn_joinLines (noNewline_loadLines reads) (loadLines_ne_nil reads)]
    refine ⟨fun hz => ?_, fun l h => Nat.le_of_lt_succ (hl l h).2⟩
    obtain ⟨l, h, hz⟩ := mem_joinLines hz (by decide)
    exact (hl l h).1 hz
  · rintro ⟨hz, hs⟩
    rw [loadLines_eq_splitOn hz hcount hs, joinLines_splitOn]

/-- A file has the same bytes after it was opened and saved if and only if it has no NUL, at most
254 newlines and no line of more than 255 bytes. -/
theorem open_save_iff (hf : b.file = some bs) (ha : b.answers = []) (hc : Cuts bs reads) :
    (∃ s', ((openFile b reads >>= comSave) = .ok s' ∨
        (openFile b reads >>= comSave) = .error (.exited s')) ∧ s'.disk.file = some bs) ↔
      0 ∉ bs ∧ bs.count '\n'.toUInt8 ≤ 254 ∧ ∀ l ∈ bs.splitOn '\n'.toUInt8, l.length ≤ 255 := by
  obtain ⟨s, ho, A, -⟩ : ∃ s, openFile b reads = .ok s ∧ Abs False s _ ∧ _ :=
    openFile_some hf False.elim
  have hda : (b.doc reads).disk.answers = [] := by simp only [Boot.doc, hf, ha]
  have hdl := Boot.lines_doc_some hf reads
  have hlen : (b.doc reads).lines.length = min (bs.count '\n'.toUInt8) 255 + 1 := by
    rw [hdl, length_loadLines, hc.1]
  rw [ho]
  simp only [bind, Except.bind]
  by_cases hcount : bs.count '\n'.toUInt8 ≤ 254
  · -- `save` comes to its end: the file is the same if nothing was lost in the loader
    have hiff := joinLines_loadLines_iff reads
      (by
        obtain ⟨ps, qs, H⟩ := A.rep
        exact fun l hl => H.line_spec (hdl ▸ hl))
      (by rw [hc.1]; omega)
    obtain ⟨s', hs, hf'⟩ := A.comSave_served (hdl ▸ loadLines_ne_nil reads) (by omega) hda
    rw [hdl] at hf'
    rw [hc.1] at hiff
    simp only [hs, hcount, true_and, ← hiff]
    constructor
    · rintro ⟨s'', ⟨⟨⟩⟩ | ⟨⟨⟩⟩, h⟩
      exact Option.some.inj (hf'.symm.trans h)
    · exact fun h => ⟨s', .inl rfl, hf'.trans (congrArg some h)⟩
  · -- all slots are in use, and the loop of `save` runs past them
    simp only [hcount, false_and, and_false, iff_false,
      A.comSave_full (by omega) (by rw [hda]; rfl)]
    rintro ⟨s', ⟨⟨⟩⟩ | ⟨⟨⟩⟩, -⟩

theorem open_save_iff_session : ∃ s',
    ((openFile (.session (some (bytesOf "a\nb")) []) [bytesOf "a\nb"] >>= comSave) = .ok s' ∨
      (openFile (.session (some (bytesOf "a\nb")) []) [bytesOf "a\nb"] >>= comSave) =
        .error (.exited s')) ∧ s'.disk.file = some (bytesOf "a\nb") :=
  (open_save_iff rfl rfl (by decide)).2 (by decide)

/-- A line of 256 bytes is dropped by the loader, and gone from the file after `save`. -/
theorem open_save_long_line :
    Cuts (List.replicate 256 'a'.toUInt8) [List.replicate 256 'a'.toUInt8] ∧
    ∃ s', (openFile (.session (some (List.replicate 256 'a'.toUInt8)) [])
        [List.replicate 256 'a'.toUInt8] >>= comSave) = .ok s' ∧ s'.disk.file = some [] := by
  refine ⟨by decide +kernel, ?_⟩
  obtain ⟨s', hs, h⟩ := exists_of_returns (p := fun s' => s'.disk.file = some [])
    (r := openFile (.session (some (List.replicate 256 'a'.toUInt8)) [])
      [List.replicate 256 'a'.toUInt8] >>= comSave) (by decide +kernel)
  exact ⟨s', hs, of_decide_eq_true h⟩

end Xv6Editor
