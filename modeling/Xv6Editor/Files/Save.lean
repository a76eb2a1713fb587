import Xv6Editor.Doc.Load
import Xv6Editor.Runs.Held

/-!
# What `save` leaves in the file

`com_save` removes the file, creates it again and writes the lines one by one, without looking at
the results of the writes.

* `Disk.writes_eq` : the `write` calls put one behind the other what the kernel lets through.
* `save_atomic_iff` : the texts and the answers of the kernel with which `save` writes the whole
  text or leaves everything as it was.
-/

namespace Xv6Editor

/-- What a `write` call with this answer lets through. -/
def Answer.got : Answer → List UInt8 → List UInt8
  | .done, d => d
  | .fails m, d => d.take m

theorem Answer.length_got_le (a : Answer) (d : List UInt8) : (a.got d).length ≤ d.length := by
  cases a with
  | done => exact le_rfl
  | fails m => exact List.length_take_le' ..

namespace Disk

/-- What the kernel lets through of the data of `write` calls. -/
def through : List Answer → List (List UInt8) → List UInt8
  | _, [] => []
  | as, d :: ds => (as.headD .done).got d ++ through as.tail ds

theorem through_nil_left (ds : List (List UInt8)) : through [] ds = ds.flatten := by
  induction ds with
  | nil => rfl
  | cons d ds ih => rw [through, List.tail_nil, ih, List.flatten_cons]; rfl

/-- The kernel lets all of the data through. -/
def Passes : List Answer → List (List UInt8) → Prop
  | _, [] => True
  | as, d :: ds => (as.headD .done).got d = d ∧ Passes as.tail ds

theorem length_through_le (as : List Answer) (ds : List (List UInt8)) :
    (through as ds).length ≤ ds.flatten.length := by
  induction ds generalizing as with
  | nil => exact le_rfl
  | cons d ds ih =>
    rw [through, List.flatten_cons, List.length_append, List.length_append]
    exact Nat.add_le_add (Answer.length_got_le ..) (ih as.tail)

theorem through_eq_flatten_iff (as : List Answer) (ds : List (List UInt8)) :
    through as ds = ds.flatten ↔ Passes as ds := by
  induction ds generalizing as with
  | nil => exact iff_of_true rfl trivial
  | cons d ds ih =>
    rw [through, Passes, List.flatten_cons, ← ih]
    constructor
    · intro h
      -- no piece is longer than its data, so none is shorter
      have hlen := congrArg List.length h
      rw [List.length_append, List.length_append] at hlen
      have hd := (as.headD .done).length_got_le d
      have hds := length_through_le as.tail ds
      exact List.append_inj h (by omega)
    · rintro ⟨hd, hds⟩
      rw [hd, hds]

theorem answer_eq (k : Disk) :
    k.answer = (k.answers.headD .done, { k with answers := k.answers.tail }) := by
  obtain ⟨file, _ | ⟨a, as⟩⟩ := k <;> rfl

theorem write_eq {k : Disk} {off : ℕ} {c d : List UInt8} (hf : k.file = some c)
    (hmax : off + d.length ≤ maxFileSize) :
    k.write off d = (off + ((k.answers.headD .done).got d).length,
      ⟨some (poke c off ((k.answers.headD .done).got d)), k.answers.tail⟩) := by
  simp only [write, answer_eq, if_pos hmax, hf, Option.map_some]
  cases k.answers.headD .done <;> rfl

/-- `write` calls from offset `off` on, as long as the file does not become too large. -/
theorem writes_eq {ds : List (List UInt8)} {off : ℕ} {k : Disk} {c : List UInt8}
    (hf : k.file = some c) (hoff : off ≤ c.length)
    (hmax : off + ds.flatten.length ≤ maxFileSize) :
    (writes ds off k).2 =
      ⟨some (poke c off (through k.answers ds)), k.answers.drop ds.length⟩ := by
  induction ds generalizing off k c with
  | nil =>
    rw [through, poke_nil, ← hf]
    rfl
  | cons d ds ih =>
    rw [List.flatten_cons, List.length_append] at hmax
    have hgot := (k.answers.headD .done).length_got_le d
    rw [writes, write_eq hf (by omega), ih rfl (le_length_poke hoff) (by omega),
      poke_poke hoff, through, List.length_cons, List.drop_tail]

/-- What `unlink` leaves at the path. -/
def unlinked (k : Disk) : Option (List UInt8) :=
  if k.answers.headD .done = .done then none else k.file

theorem unlink_eq (k : Disk) : k.unlink = ⟨k.unlinked, k.answers.tail⟩ := by
  obtain ⟨file, _ | ⟨_ | m, as⟩⟩ := k <;> rfl

/-- What `open` leaves at the path. -/
def opened (k : Disk) : Option (List UInt8) :=
  if k.answers.headD .done = .fails 0 then k.file else some (k.file.getD [])

theorem openCreate_eq (k : Disk) :
    k.openCreate = (decide (k.answers.headD .done = .done), ⟨k.opened, k.answers.tail⟩) := by
  obtain ⟨file, _ | ⟨_ | _ | m, as⟩⟩ := k <;> rfl

end Disk

/-! ### The bytes of a text -/

theorem flatten_saveChunks {ls : List Line} : (saveChunks ls).flatten = joinLines ls := by
  cases ls with
  | nil => rfl
  | cons l ls =>
    induction ls generalizing l with
    | nil => simp [saveChunks]
    | cons l' ls ih =>
      rw [joinLines_cons_cons, ← ih l']
      simp [saveChunks]
      rfl

/-- A text of at most 255 lines fits into a file. -/
theorem length_joinLines_le {ls : List Line} (h : ∀ l ∈ ls, l.length < 256)
    (hk : ls.length ≤ 255) : (joinLines ls).length ≤ Disk.maxFileSize := by
  by_cases h0 : ls = []
  · rw [h0]
    decide
  · have := length_joinLines h h0
    have : Disk.maxFileSize = 71680 := rfl
    omega

variable {s : State} {d : Doc}

theorem Mem.lines_short {zt : Prop} (M : Mem zt s d) : ∀ l ∈ d.lines, l.length < 256 := by
  obtain ⟨ps, qs, H⟩ := M.rep
  exact fun l hl => (H.line_spec hl).2

/-- `com_save` without a NULL in the array reads `text[256]`. -/
theorem Mem.comSave_full (M : Mem zt s d) (hk : d.lines.length = 256)
    (hopen : d.disk.answers.tail.headD .done = .done) :
    Xv6Editor.comSave s = .error (.fault (.textIndex 256)) := by
  have hopen : s.unlink.openCreate =
      (true, { s with disk := s.disk.unlink.openCreate.2 }) := by
    rw [← M.disk_eq] at hopen
    simp only [State.openCreate, State.unlink, Disk.unlink_eq, Disk.openCreate_eq, hopen,
      decide_true]
  have M₁ := M.withDisk s.disk.unlink.openCreate.2
  obtain ⟨ps, qs, H⟩ := M₁.rep
  have hlen := H.length_eq.trans hk
  obtain ⟨p₀, ps, rfl⟩ := List.exists_cons_of_length_eq_add_one hlen
  obtain ⟨l₀, ls, hls⟩ := List.exists_cons_of_length_eq_add_one hk
  simp only [hls] at H
  have hstr := H.strAt_line (i := 0) rfl rfl
  have hslot := H.slot_eq (i := 0) (by omega)
  have hscan := scanSlots_full (fun _ p a => saveBody p a) ps (fun a => a.2.heap = s.heap)
    (j := 1) (a := State.write { s with disk := s.disk.unlink.openCreate.2 } 0 l₀) rfl
    fun i p a hp hI => by
      obtain ⟨l, b, -, hb, hbl⟩ := H.lines_holds.exists_block (i := i + 1) (p := p) hp
      rw [← hI] at hb
      exact ⟨_, saveBody_eq hb hbl a.1, hI⟩
  rw [show ps.length = 255 by simpa using hlen] at hscan
  have hdrop : s.text.toList.drop 1 = ps.map some := by
    rw [show s.text.toList = _ from H.text_eq, slots, hlen]
    simp
  rw [Xv6Editor.comSave, hopen]
  simp only [hslot, List.getElem?_cons_zero, hstr, hdrop, hscan, bind, Except.bind]
  rfl

/-! ### All or nothing -/

/-- The bytes in the file after the writes of `com_save`. -/
def savedBytes (k : Disk) (ls : List Line) : List UInt8 :=
  poke (k.unlinked.getD []) 0 (Disk.through k.answers.tail.tail (saveChunks ls))

/-- With a kernel that serves every call the file holds the lines. -/
theorem savedBytes_of_served {k : Disk} (h : k.answers = []) (ls : List Line) :
    savedBytes k ls = joinLines ls := by
  rw [savedBytes, Disk.unlinked, h, List.tail_nil, List.tail_nil, Disk.through_nil_left,
    flatten_saveChunks]
  simp [poke]

theorem Doc.save_eq (hl : ∀ l ∈ d.lines, l.length < 256) (hk : d.lines.length ≤ 255) :
    d.save = if d.disk.answers.tail.headD .done = .done then some { d with
        disk := ⟨some (savedBytes d.disk d.lines),
          d.disk.answers.tail.tail.drop (saveChunks d.lines).length⟩
        changed := false }
      else none := by
  unfold Doc.save
  rw [Disk.unlink_eq, Disk.openCreate_eq]
  by_cases hopen : d.disk.answers.tail.headD .done = .done
  · rw [if_pos hopen, if_pos (by simpa using hopen), Disk.writes_eq]
    · rfl
    · exact if_neg (by simp only [hopen]; exact nofun)
    · exact Nat.zero_le _
    · rw [Nat.zero_add, flatten_saveChunks]
      exact length_joinLines_le hl hk
  · rw [if_neg hopen, if_neg (by simpa using hopen)]

theorem savedBytes_eq (k : Disk) (ls : List Line) :
    savedBytes k ls = Disk.through k.answers.tail.tail (saveChunks ls) ++
      (k.unlinked.getD []).drop (Disk.through k.answers.tail.tail (saveChunks ls)).length := by
  rw [savedBytes, poke, List.take_zero, List.nil_append, Nat.zero_add]

/-- The texts and the answers of the kernel with which `com_save` does no harm.
* If it opens an empty file: the array has a NULL behind the text, and all of the text gets
  through, or what gets through is what was in the file before and nothing was to be saved.
* If it opens the old file: the array has a NULL behind the text, and what gets through, with the
  rest of the old file behind it, is the text; or what gets through is the beginning of the old
  file and nothing was to be saved.
* If it cannot open the file: the file already holds the text and nothing was to be saved. -/
def SaveSafe (k : Disk) (ls : List Line) (changed : Bool) : Prop :=
  let got := Disk.through k.answers.tail.tail (saveChunks ls)
  match k.answers.tail.headD .done, k.unlinked with
  | .done, none => ls.length ≤ 255 ∧ (Disk.Passes k.answers.tail.tail (saveChunks ls) ∨
      changed = false ∧ k.file = some got)
  | .done, some old => ls.length ≤ 255 ∧ (got ++ old.drop got.length = joinLines ls ∨
      changed = false ∧ got <+: old)
  | .fails m, file => changed = false ∧
      (file = some (joinLines ls) ∨ m ≠ 0 ∧ file = none ∧ joinLines ls = [])

/-- What the answers say about the bytes in the file, if it can be opened. -/
theorem saveSafe_of_opened {k : Disk} {ls : List Line} {changed : Bool}
    (hopen : k.answers.tail.headD .done = .done) :
    SaveSafe k ls changed ↔ ls.length ≤ 255 ∧ (savedBytes k ls = joinLines ls ∨
      changed = false ∧ k.file = some (savedBytes k ls)) := by
  rw [SaveSafe, hopen, savedBytes_eq]
  cases hu : k.unlinked with
  | none =>
    simp only [Option.getD_none, List.drop_nil, List.append_nil]
    rw [← Disk.through_eq_flatten_iff, flatten_saveChunks]
  | some old =>
    -- something is left only if `unlink` failed, and then it is the old file
    have hf : k.file = some old := by
      unfold Disk.unlinked at hu
      split_ifs at hu
      exact hu
    simp only [Option.getD_some, hf, Option.some.injEq]
    refine and_congr_right fun _ => or_congr_right (and_congr_right fun _ => ?_)
    constructor
    · rintro ⟨t, rfl⟩
      rw [List.drop_left]
    · exact fun h => ⟨_, h.symm⟩

/-- If the file cannot be opened, `com_save` ends the editor, with what `unlink` left. -/
theorem saveSafe_of_refused {k : Disk} {ls : List Line} {changed : Bool} {m : ℕ}
    (hopen : k.answers.tail.headD .done = .fails m) :
    SaveSafe k ls changed ↔
      changed = false ∧ k.unlink.openCreate.2.file = some (joinLines ls) := by
  rw [SaveSafe, hopen, Disk.unlink_eq, Disk.openCreate_eq]
  refine and_congr_right fun _ => ?_
  simp only [Disk.opened, hopen, Answer.fails.injEq]
  cases m with
  | zero => simp
  | succ m =>
    cases k.unlinked with
    | none => simp [eq_comm (a := []) (b := joinLines ls)]
    | some f => simp

/-- After `com_save` the file holds the whole text and nothing is marked as changed, or the file
and the editor are as before, if and only if the text leaves a NULL in the array, or the file cannot
be opened, and the kernel answers that way. -/
theorem save_atomic_iff (h : Held s) :
    ((∃ s', (comSave s = .ok s' ∨ comSave s = .error (.exited s')) ∧
        s'.disk.file = some (joinLines s.lines) ∧ s'.changed = false) ∨
      ∃ s', comSave s = .ok s' ∧ s'.disk.file = s.disk.file ∧ s'.lines = s.lines ∧
        s'.changed = s.changed) ↔
    SaveSafe s.disk s.lines s.changed := by
  obtain ⟨d, M, h0⟩ := h
  rw [M.lines_eq, M.changed_eq, M.disk_eq]
  cases hopen : d.disk.answers.tail.headD .done with
  | done =>
    rw [saveSafe_of_opened hopen]
    rcases Nat.lt_or_ge 255 d.lines.length with hlt | hk
    · -- the loop runs past the array, after the file was removed
      have hlen := M.length_le
      rw [M.comSave_full (by omega) hopen]
      simp [Nat.not_le.2 hlt]
    · have hsave := M.comSave h0 hk
      rw [Doc.save_eq M.lines_short hk, hopen, if_pos rfl] at hsave
      obtain ⟨s', hs, M', -⟩ := hsave
      rw [hs]
      simp only [Except.ok.injEq, reduceCtorEq, or_false, exists_eq_left', M'.disk_eq,
        M'.changed_eq, M'.lines_eq, Option.some.injEq, true_and, and_true, hk]
      rw [and_comm, eq_comm (a := false), eq_comm (b := d.disk.file)]
  | fails m =>
    obtain ⟨s', hs, M'⟩ := M.comSave_exits
      (by rw [Disk.unlink_eq, Disk.openCreate_eq, hopen]; rfl)
    rw [hs, saveSafe_of_refused hopen, and_comm (a := _ = false)]
    simp only [Except.error.injEq, Halt.exited.injEq, reduceCtorEq, false_or, false_and,
      exists_false, or_false, exists_eq_left', M'.disk_eq, M'.changed_eq]

theorem save_atomic_iff_session : ∃ s, s.lines = [bytesOf "a", bytesOf "b"] ∧
    ((∃ s', (comSave s = .ok s' ∨ comSave s = .error (.exited s')) ∧
        s'.disk.file = some (joinLines s.lines) ∧ s'.changed = false) ∨
      ∃ s', comSave s = .ok s' ∧ s'.disk.file = s.disk.file ∧ s'.lines = s.lines ∧
        s'.changed = s.changed) := by
  obtain ⟨s, A⟩ := exists_session False (bytesOf "a\nb") [] False.elim
  have hl : s.lines = [bytesOf "a", bytesOf "b"] := A.lines_eq.trans (by decide)
  have hd : s.disk = ⟨some (bytesOf "a\nb"), []⟩ := A.disk_eq
  have hsafe : SaveSafe s.disk s.lines s.changed := by
    rw [hl, hd]
    exact ⟨by decide, .inl ⟨rfl, rfl, rfl, trivial⟩⟩
  exact ⟨s, hl, (save_atomic_iff ⟨_, A.toMem, by decide⟩).2 hsafe⟩

/-- If the `write` of the only line fails, the old file is lost and the text counts as saved. -/
theorem save_write_fails : ∃ s s', Reachable showTextSyntaxHighlighting s ∧
    s.lines = [bytesOf "a"] ∧ s.disk.file = some (bytesOf "a") ∧ comSave s = .ok s' ∧
    s'.disk.file = some [] ∧ s'.changed = false := by
  obtain ⟨s, hs, h⟩ := exists_of_returns
    (r := main showTextSyntaxHighlighting
      { Boot.session (some (bytesOf "a")) [] with answers := [.done, .done, .fails 0] }
      [bytesOf "a"])
    (p := fun s => s.lines = [bytesOf "a"] ∧ s.disk.file = some (bytesOf "a") ∧
      returns (comSave s) fun s' => s'.disk.file = some [] ∧ s'.changed = false)
    (by decide +kernel)
  obtain ⟨hl, hf, h⟩ := of_decide_eq_true h
  obtain ⟨s', hs', h⟩ := exists_of_returns h
  exact ⟨s, s', .of_main (by rintro _ ⟨⟩; decide) hs, hl, hf, hs', of_decide_eq_true h⟩

end Xv6Editor
