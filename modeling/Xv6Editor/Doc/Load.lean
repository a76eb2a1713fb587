import Xv6Editor.Doc.Basic

/-!
# Reading a file into lines

The loader of `main` on lists: `readBuf` goes over the bytes of one `read`, `readAll` over the
successive reads.  The text read so far is `done ++ [cur]`, and `seg` are the bytes of the buffer
that will be appended to `cur` at the next newline or at the end of the buffer.

* `loadLines_joinLines` : however a file of such lines is cut into reads, the loader gives the
  lines back, if they have at most 255 bytes each and there are at most 256 of them.
* `noNewline_loadLines` : whatever the file, no line read from it has a newline.
-/

namespace Xv6Editor

/-- `strcat_n(text[line_number], buf+next, i-next)` on strings. -/
def addSegment (cur seg : Line) : Line :=
  if seg.length + cur.length < 256 then cur ++ cstr seg else cur

/-- The inner loop of the loader; whether the text is full, and the lines. -/
def readBuf (done : List Line) (cur seg : Line) : List UInt8 → Bool × List Line × Line
  | [] => (false, done, addSegment cur seg)
  | c :: cs =>
    if c = '\n'.toUInt8 then
      if done.length ≥ 255 then (true, done, addSegment cur seg)
      else readBuf (done ++ [addSegment cur seg]) [] [] cs
    else readBuf done cur (seg ++ [c]) cs

/-- The loop over the reads. -/
def readAll (done : List Line) (cur : Line) : List (List UInt8) → List Line
  | [] => done ++ [cur]
  | buf :: reads =>
    match readBuf done cur [] buf with
    | (true, done, cur) => done ++ [cur]
    | (false, done, cur) => readAll done cur reads

/-- The lines of a file that is delivered by the given reads. -/
def loadLines (reads : List (List UInt8)) : List Line := readAll [] [] reads

/-- No line has a newline. -/
def NoNewline (ls : List Line) : Prop := ∀ l ∈ ls, '\n'.toUInt8 ∉ l

variable {done ls ls' : List Line} {cur seg l x : Line} {cs rem : List UInt8}

/-! ### Lines and bytes -/

@[simp] theorem joinLines_singleton (l : Line) : joinLines [l] = l := by
  simp [joinLines, List.intercalate]

@[simp] theorem joinLines_cons_cons (l l' : Line) (ls : List Line) :
    joinLines (l :: l' :: ls) = l ++ '\n'.toUInt8 :: joinLines (l' :: ls) := by
  simp [joinLines, List.intercalate]

theorem splitOn_joinLines (h : NoNewline ls) (h0 : ls ≠ []) :
    (joinLines ls).splitOn '\n'.toUInt8 = ls :=
  List.splitOn_intercalate _ h h0

theorem joinLines_splitOn (bs : List UInt8) : joinLines (bs.splitOn '\n'.toUInt8) = bs :=
  List.intercalate_splitOn _

theorem noNewline_splitOn (bs : List UInt8) : NoNewline (bs.splitOn '\n'.toUInt8) := by
  intro l h
  induction bs generalizing l with
  | nil =>
    rw [List.splitOn_nil, List.mem_singleton] at h
    simp [h]
  | cons b bs ih =>
    rw [List.splitOn_cons_eq_if_modifyHead] at h
    obtain ⟨p, ps, hp⟩ := List.exists_cons_of_ne_nil (List.splitOn_ne_nil '\n'.toUInt8 bs)
    rw [hp] at h ih
    split_ifs at h with hb
    · rcases List.mem_cons.1 h with rfl | h
      · simp
      · exact ih l h
    · rcases List.mem_cons.1 h with rfl | h
      · have hbn : '\n'.toUInt8 ≠ b := fun h => hb (by simp [h])
        rw [List.mem_cons, not_or]
        exact ⟨hbn, ih p (by simp)⟩
      · exact ih l (by simp [h])

theorem length_joinLines (h : ∀ l ∈ ls, l.length < 256) (h0 : ls ≠ []) :
    (joinLines ls).length + 1 ≤ 256 * ls.length := by
  induction ls with
  | nil => exact absurd rfl h0
  | cons l ls ih =>
    have hl := h l (by simp)
    cases ls with
    | nil =>
      rw [joinLines_singleton, List.length_singleton]
      omega
    | cons l' ls =>
      have := ih (fun x hx => h x (by simp [hx])) (by simp)
      simp only [joinLines_cons_cons, List.length_append, List.length_cons] at this ⊢
      omega

theorem count_joinLines (h : NoNewline ls) (h0 : ls ≠ []) :
    (joinLines ls).count '\n'.toUInt8 + 1 = ls.length := by
  induction ls with
  | nil => exact absurd rfl h0
  | cons l ls ih =>
    have hl := List.count_eq_zero_of_not_mem (h l (by simp))
    cases ls with
    | nil => rw [joinLines_singleton, hl, List.length_singleton]
    | cons l' ls =>
      have := ih (fun x hx => h x (by simp [hx])) (by simp)
      rw [joinLines_cons_cons, List.count_append, List.count_cons_self, List.length_cons, ← this]
      omega

theorem mem_joinLines {b : UInt8} (h : b ∈ joinLines ls) (hb : b ≠ '\n'.toUInt8) :
    ∃ l ∈ ls, b ∈ l := by
  induction ls with
  | nil => simp [joinLines] at h
  | cons l ls ih =>
    cases ls with
    | nil => exact ⟨l, by simp, by simpa using h⟩
    | cons l' ls =>
      rw [joinLines_cons_cons, List.mem_append, List.mem_cons] at h
      obtain h | h | h := h
      · exact ⟨l, by simp, h⟩
      · exact absurd h hb
      · obtain ⟨y, hy, hby⟩ := ih h
        exact ⟨y, by simp [hy], hby⟩

/-- A file that starts with a newline: the first line is empty. -/
theorem newline_cons_eq_joinLines (h : '\n'.toUInt8 :: rem = joinLines (x :: ls))
    (hx : '\n'.toUInt8 ∉ x) :
    x = [] ∧ ∃ l ls', ls = l :: ls' ∧ rem = joinLines (l :: ls') := by
  cases ls with
  | nil =>
    rw [joinLines_singleton] at h
    exact absurd (h ▸ List.mem_cons_self) hx
  | cons l ls =>
    rw [joinLines_cons_cons] at h
    cases x with
    | nil => exact ⟨rfl, l, ls, rfl, by simpa using h⟩
    | cons b x =>
      rw [List.cons_append, List.cons.injEq] at h
      exact absurd (h.1 ▸ List.mem_cons_self) hx

theorem cons_eq_joinLines {c : UInt8} (h : c :: rem = joinLines (x :: ls))
    (hc : c ≠ '\n'.toUInt8) : ∃ x', x = c :: x' ∧ rem = joinLines (x' :: ls) := by
  cases x with
  | nil => cases ls <;> simp at h; exact absurd h.1 hc
  | cons b x =>
    cases ls with
    | nil =>
      rw [joinLines_singleton, List.cons.injEq] at h
      exact ⟨x, by rw [h.1], by rw [joinLines_singleton, h.2]⟩
    | cons l ls =>
      rw [joinLines_cons_cons, List.cons_append, List.cons.injEq] at h
      exact ⟨x, by rw [h.1], by rw [joinLines_cons_cons, h.2]⟩

/-! ### A file of short lines -/

section Good

variable {file : List Line} (hnl : NoNewline file)
  (hlen : ∀ l ∈ file, 0 ∉ l ∧ l.length < 256) (hcount : file.length ≤ 256)

include hlen in
/-- The pending bytes fit behind the current line. -/
theorem addSegment_of_mem (h : cur ++ seg ++ x ∈ file) : addSegment cur seg = cur ++ seg := by
  obtain ⟨h0, h1⟩ := hlen _ h
  simp only [List.length_append, List.mem_append, not_or] at h0 h1
  rw [addSegment, if_pos (by omega), cstr_eq_self h0.1.2]

include hnl hlen hcount

/-- One read: what is left of the file is what is left of its lines. -/
theorem readBuf_join (hfile : file = done ++ (cur ++ seg ++ x) :: ls)
    (hrem : cs ++ rem = joinLines (x :: ls)) :
    ∃ done' cur' x' ls', readBuf done cur seg cs = (false, done', cur') ∧
      file = done' ++ (cur' ++ x') :: ls' ∧ rem = joinLines (x' :: ls') := by
  induction cs generalizing done cur seg x ls with
  | nil =>
    exact ⟨done, cur ++ seg, x, ls,
      by rw [readBuf, addSegment_of_mem (x := x) hlen (by simp [hfile])], hfile, hrem⟩
  | cons c cs ih =>
    have hmem : cur ++ seg ++ x ∈ file := by simp [hfile]
    rw [readBuf]
    by_cases hc : c = '\n'.toUInt8
    · -- the line is complete, and there is another one
      have hx : '\n'.toUInt8 ∉ x := fun h => hnl _ hmem (List.mem_append_right _ h)
      rw [hc] at hrem
      obtain ⟨rfl, l, ls, rfl, hrem'⟩ := newline_cons_eq_joinLines hrem hx
      have hdone : ¬done.length ≥ 255 := by
        have := congrArg List.length hfile
        simp only [List.length_append, List.length_cons] at this
        omega
      rw [if_pos hc, if_neg hdone, addSegment_of_mem hlen hmem]
      exact ih (by simpa using hfile) hrem'
    · obtain ⟨x, rfl, hrem'⟩ := cons_eq_joinLines hrem hc
      rw [if_neg hc]
      exact ih (by simpa using hfile) hrem'

theorem readAll_join {reads : List (List UInt8)} (hfile : file = done ++ (cur ++ x) :: ls)
    (hrem : reads.flatten = joinLines (x :: ls)) : readAll done cur reads = file := by
  induction reads generalizing done cur x ls with
  | nil =>
    -- nothing is left
    cases ls with
    | nil =>
      rw [joinLines_singleton] at hrem
      rw [readAll, hfile, ← hrem]
      simp
    | cons l ls => simp at hrem
  | cons buf reads ih =>
    obtain ⟨done', cur', x', ls', hb, hfile', hrem'⟩ :=
      readBuf_join hnl hlen hcount (show file = done ++ (cur ++ [] ++ x) :: ls by simpa using hfile)
        (show buf ++ reads.flatten = joinLines (x :: ls) by simpa using hrem)
    rw [readAll, hb]
    exact ih hfile' hrem'

/-- The loader gives back the lines of a file of short lines, however it is cut into reads. -/
theorem loadLines_joinLines (h0 : file ≠ []) {reads : List (List UInt8)}
    (hreads : reads.flatten = joinLines file) : loadLines reads = file := by
  obtain ⟨l, ls, rfl⟩ := List.exists_cons_of_ne_nil h0
  exact readAll_join hnl hlen hcount (show l :: ls = [] ++ ([] ++ l) :: ls from rfl) hreads

end Good

/-! ### Any file -/

theorem newline_notMem_addSegment (hc : '\n'.toUInt8 ∉ cur) (hs : '\n'.toUInt8 ∉ seg) :
    '\n'.toUInt8 ∉ addSegment cur seg := by
  unfold addSegment
  split_ifs
  · rw [List.mem_append, not_or]
    exact ⟨hc, fun h => hs ((cstr_sublist seg).subset h)⟩
  · exact hc

theorem noNewline_concat : NoNewline (ls ++ [l]) ↔ NoNewline ls ∧ '\n'.toUInt8 ∉ l := by
  simp [NoNewline, or_imp, forall_and]

theorem noNewline_readBuf (hd : NoNewline (done ++ [cur])) (hs : '\n'.toUInt8 ∉ seg) :
    NoNewline ((readBuf done cur seg cs).2.1 ++ [(readBuf done cur seg cs).2.2]) := by
  have hc : NoNewline (done ++ [addSegment cur seg]) := by
    rw [noNewline_concat] at hd ⊢
    exact ⟨hd.1, newline_notMem_addSegment hd.2 hs⟩
  induction cs generalizing done cur seg with
  | nil => exact hc
  | cons c cs ih =>
    rw [readBuf]
    split_ifs with hn hfull
    · exact hc
    · have hd' : NoNewline (done ++ [addSegment cur seg] ++ [[]]) := by
        rw [noNewline_concat]
        exact ⟨hc, by simp⟩
      exact ih hd' (by simp) (by simpa [addSegment, cstr] using hd')
    · have hs' : '\n'.toUInt8 ∉ seg ++ [c] := by
        rw [List.mem_append, List.mem_singleton, not_or]
        exact ⟨hs, fun h => hn h.symm⟩
      refine ih hd hs' ?_
      rw [noNewline_concat] at hd ⊢
      exact ⟨hd.1, newline_notMem_addSegment hd.2 hs'⟩

theorem noNewline_readAll {reads : List (List UInt8)} (hd : NoNewline (done ++ [cur])) :
    NoNewline (readAll done cur reads) := by
  induction reads generalizing done cur with
  | nil => exact hd
  | cons buf reads ih =>
    have hb : NoNewline ((readBuf done cur [] buf).2.1 ++ [(readBuf done cur [] buf).2.2]) :=
      noNewline_readBuf hd (by simp)
    rw [readAll]
    split <;> rename_i heq <;> rw [heq] at hb
    · exact hb
    · exact ih hb

/-- Whatever the file is, no line read from it has a newline. -/
theorem noNewline_loadLines (reads : List (List UInt8)) : NoNewline (loadLines reads) :=
  noNewline_readAll (by simp [NoNewline])

/-- One read adds a line for every newline, up to the last slot. -/
theorem length_readBuf (cur seg : Line) (cs : List UInt8) (hd : done.length ≤ 255) :
    (readBuf done cur seg cs).2.1.length = min (done.length + cs.count '\n'.toUInt8) 255 ∧
      ((readBuf done cur seg cs).1 = true ↔ 255 < done.length + cs.count '\n'.toUInt8) := by
  induction cs generalizing done cur seg with
  | nil => simp [readBuf, hd]
  | cons c cs ih =>
    rw [readBuf]
    split_ifs with hc hfull
    · rw [hc, List.count_cons_self]
      exact ⟨by simp only; omega, by simp only [true_iff]; omega⟩
    · have hlen : (done ++ [addSegment cur seg]).length = done.length + 1 := by simp
      have := ih [] [] (hlen.trans_le (by omega))
      rw [hlen] at this
      rw [hc, List.count_cons_self, Nat.add_comm (cs.count _), ← Nat.add_assoc]
      exact this
    · rw [List.count_cons_of_ne hc]
      exact ih _ _ hd

theorem length_readAll {reads : List (List UInt8)} (hd : done.length ≤ 255) :
    (readAll done cur reads).length =
      min (done.length + reads.flatten.count '\n'.toUInt8) 255 + 1 := by
  induction reads generalizing done cur with
  | nil => simp [readAll, hd]
  | cons buf reads ih =>
    obtain ⟨hlen, hfull⟩ := length_readBuf cur [] buf hd
    rw [readAll, List.flatten_cons, List.count_append]
    split <;> rename_i heq <;> rw [heq] at hlen hfull
    · simp only [true_iff] at hfull hlen
      rw [List.length_append, List.length_singleton, hlen]
      omega
    · simp only [Bool.false_eq_true, false_iff] at hfull hlen
      rw [ih (by omega), hlen]
      omega

/-- A file is read up to its 256th line. -/
theorem length_loadLines (reads : List (List UInt8)) :
    (loadLines reads).length = min (reads.flatten.count '\n'.toUInt8) 255 + 1 := by
  rw [loadLines, length_readAll (by simp), List.length_nil, Nat.zero_add]

end Xv6Editor
