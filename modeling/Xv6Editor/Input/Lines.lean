import Xv6Editor.Runs.Frame
import Xv6Editor.Runs.Invariant

/-!
# Typed lines

The editor reads a line with `gets`, which stops after 255 bytes, and deletes the last byte of what
it got.  If the input consists of lines of at most 254 bytes, every read gets the next line,
whichever part of the editor makes it.  A longer line is cut, loses a byte, and its rest is read as
a line of its own.

* `readsLine` : one read.
* `reads_lines_iff` : all the reads of the editor.
-/

namespace Xv6Editor

/-- The input that consists of the lines `ls`, each with its newline. -/
def unlines (ls : List Line) : List UInt8 := ls.flatMap (· ++ ['\n'.toUInt8])

/-- A line as it is typed: without NUL, newline and carriage return. -/
def Typed (l : Line) : Prop := ∀ c ∈ l, c ≠ 0 ∧ c ≠ '\n'.toUInt8 ∧ c ≠ '\r'.toUInt8

/-- Whatever the editor reads in the state `s`, it gets the line `l`, and `st` is left. -/
structure ReadsLine (s : State) (l : Line) (st : List UInt8) : Prop where
  /-- The command loop has the line in its input buffer, and zeros behind it. -/
  command : promptStep showTextSyntaxHighlighting s =
    exec showTextSyntaxHighlighting (parse s.lineNumber (pad 256 l))
      { s with stdin := st, console := s.console ++ [.lit ">>> ", .sgr [1, 33], .sgr [0]] }
  /-- `com_ins` and `com_mod` have it as the content. -/
  content : readContent s [] =
    .ok (l, { s with stdin := st, console := s.console ++ contentPrompt })
  /-- `com_exit` has it as the answer. -/
  answer : getLine s = .ok (l, { s with stdin := st })

variable {s : State} {l : Line} {ls : List Line} {st : List UInt8} {k : ℕ}

theorem unlines_cons (l : Line) (ls : List Line) :
    unlines (l :: ls) = l ++ '\n'.toUInt8 :: unlines ls := by
  simp [unlines]

/-! ### One read -/

theorem Typed.zero_notMem (h : Typed l) : 0 ∉ l := fun h0 => (h 0 h0).1 rfl

theorem getsFrom_line (h : Typed l) (hk : l.length < k) (st : List UInt8) :
    getsFrom k (l ++ '\n'.toUInt8 :: st) = (l ++ ['\n'.toUInt8], st) := by
  induction l generalizing k with
  | nil =>
    obtain ⟨k, rfl⟩ := Nat.exists_eq_succ_of_ne_zero (Nat.ne_zero_of_lt hk)
    rw [List.nil_append, getsFrom, if_pos (.inl rfl), List.nil_append]
  | cons c l ih =>
    obtain ⟨k, rfl⟩ := Nat.exists_eq_succ_of_ne_zero (Nat.ne_zero_of_lt hk)
    obtain ⟨-, hn, hr⟩ := h c List.mem_cons_self
    have ih := ih (fun c hc => h c (List.mem_cons_of_mem _ hc)) (Nat.lt_of_succ_lt_succ hk)
    rw [List.cons_append, getsFrom, if_neg (not_or.2 ⟨hn, hr⟩), ih, List.cons_append]

theorem gets_line (h : Typed l) (hl : l.length ≤ 254) (st : List UInt8) :
    gets (l ++ '\n'.toUInt8 :: st) = (l ++ ['\n'.toUInt8], st) :=
  getsFrom_line h (Nat.lt_succ_of_le hl) st

theorem cstr_line (h : Typed l) : cstr (l ++ ['\n'.toUInt8]) = l ++ ['\n'.toUInt8] := by
  refine cstr_eq_self ?_
  rw [List.mem_append, List.mem_singleton]
  exact not_or.2 ⟨h.zero_notMem, by decide⟩

/-- The newline is the last byte, so this is what is deleted. -/
theorem getLine_line (h : Typed l) (hl : l.length ≤ 254)
    (hs : s.stdin = l ++ '\n'.toUInt8 :: st) : getLine s = .ok (l, { s with stdin := st }) := by
  rw [getLine_eq, hs, gets_line h hl, cstr_line h, if_neg (List.append_ne_nil_of_right_ne_nil _
    (List.cons_ne_nil _ _)), List.dropLast_concat]

/-- What is left in a buffer has at most 254 bytes. -/
theorem length_of_getLine {s' : State} (h : getLine s = .ok (l, s')) : l.length ≤ 254 := by
  rw [getLine_eq] at h
  split_ifs at h
  · cases h
  · cases h
    have h1 := length_gets_le s.stdin
    have h2 := (cstr_sublist (gets s.stdin).1).length_le
    rw [List.length_dropLast]
    omega

theorem inputBuffer_line (h : Typed l) (hl : l.length ≤ 254) :
    inputBuffer (l ++ ['\n'.toUInt8]) = pad 256 l := by
  have hlen : (l ++ ['\n'.toUInt8]).length = l.length + 1 := List.length_append
  have hrep : List.replicate (256 - l.length) (0 : UInt8) =
      0 :: List.replicate (256 - (l.length + 1)) 0 := by
    rw [← List.replicate_succ]
    congr 1
    omega
  rw [inputBuffer, cstr_pad_of_lt (by omega), cstr_line h, hlen, Nat.add_sub_cancel, pad, pad, hlen,
    List.append_assoc, List.set_append_right _ _ le_rfl, Nat.sub_self, hrep]
  rfl

theorem promptStep_line (disp : Display) (h : Typed l) (hl : l.length ≤ 254)
    (hs : s.stdin = l ++ '\n'.toUInt8 :: st) :
    promptStep disp s = exec disp (parse s.lineNumber (pad 256 l))
      { s with stdin := st, console := s.console ++ [.lit ">>> ", .sgr [1, 33], .sgr [0]] } := by
  rw [promptStep_eq, cstr_pad_gets, hs, gets_line h hl, cstr_line h,
    if_neg (List.append_ne_nil_of_right_ne_nil _ (List.cons_ne_nil _ _)), inputBuffer_line h hl]

/-- Every kind of read gets a line of at most 254 bytes. -/
theorem readsLine (h : Typed l) (hl : l.length ≤ 254) (hs : s.stdin = l ++ '\n'.toUInt8 :: st) :
    ReadsLine s l st where
  command := promptStep_line _ h hl hs
  content := getLine_line h hl hs
  answer := getLine_line h hl hs

/-! ### The reads of a run -/

/-- Some of the lines are left. -/
def LeftOf (ls : List Line) (s : State) : Prop := ∃ i, s.stdin = unlines (ls.drop i)

/-- A state in which the run ended, if it did, has `P`. -/
def ExitsIn (P : State → Prop) : Halt → Prop
  | .exited s => P s
  | .stuck _ _ | .fault _ => True

theorem LeftOf.getLine (hls : ∀ l ∈ ls, Typed l) (hlen : ∀ l ∈ ls, l.length ≤ 254)
    (h : LeftOf ls s) : EnsuresOr (fun r => LeftOf ls r.2) (ExitsIn (LeftOf ls)) (getLine s) := by
  obtain ⟨i, hi⟩ := h
  cases hd : ls.drop i with
  | nil =>
    rw [hd] at hi
    rw [getLine_eq, hi]
    exact .error trivial
  | cons l rest =>
    have hl : l ∈ ls := List.mem_of_mem_drop (hd ▸ List.mem_cons_self)
    rw [hd, unlines_cons] at hi
    rw [getLine_line (hls l hl) (hlen l hl) hi]
    refine .ok ⟨i + 1, ?_⟩
    rw [← List.drop_drop, hd]
    rfl

theorem LeftOf.closedFrame (hls : ∀ l ∈ ls, Typed l) (hlen : ∀ l ∈ ls, l.length ≤ 254) :
    ClosedFrame showTextSyntaxHighlighting (LeftOf ls) (ExitsIn (LeftOf ls)) :=
  .ofStdin (Q := fun st => ∃ i, st = unlines (ls.drop i)) (fun _ => trivial) (fun _ h => h)
    (fun s => ensuresOr_highlighting s (fun _ => trivial) fun _ => trivial)
    fun _ h => LeftOf.getLine hls hlen h

theorem stdin_of_main {disp : Display} {b : Boot} {reads : List (List UInt8)}
    (h : main disp b reads = .ok s) : s.stdin = b.stdin := by
  have A : Abs False s (b.doc reads) := .of_main False.elim h
  exact A.stdin_eq

/-- Every read of the editor gets the next line of the input if and only if all the lines have at
most 254 bytes. -/
theorem reads_lines_iff {b : Boot} (hb : b.stdin = unlines ls) (hls : ∀ l ∈ ls, Typed l) :
    ((∀ i l s, ls[i]? = some l → s.stdin = unlines (ls.drop i) →
        ReadsLine s l (unlines (ls.drop (i + 1)))) ∧
      ∀ reads s₀ s, main showTextSyntaxHighlighting b reads = .ok s₀ →
        Relation.ReflTransGen (Step showTextSyntaxHighlighting) s₀ s →
        LeftOf ls s ∧ ∀ s', promptStep showTextSyntaxHighlighting s = .error (.exited s') →
          LeftOf ls s') ↔
      ∀ l ∈ ls, l.length ≤ 254 := by
  constructor
  · rintro ⟨hread, -⟩ l hl
    obtain ⟨i, hi⟩ := List.mem_iff_getElem?.1 hl
    exact length_of_getLine (hread i l { b.state with stdin := unlines (ls.drop i) } hi rfl).answer
  · intro hlen
    have F := LeftOf.closedFrame hls hlen
    refine ⟨fun i l s hi hs => ?_, fun reads s₀ s hm hr => ?_⟩
    · have hl := List.mem_of_getElem? hi
      obtain ⟨hlt, rfl⟩ := List.getElem?_eq_some_iff.1 hi
      refine readsLine (hls _ hl) (hlen _ hl) ?_
      rw [hs, List.drop_eq_getElem_cons hlt, unlines_cons]
    · have hs : LeftOf ls s := by
        induction hr with
        | refl => exact ⟨0, (stdin_of_main hm).trans hb⟩
        | tail _ hstep ih => exact (F.promptStep ih).1 _ hstep
      exact ⟨hs, fun s' hs' => (F.promptStep hs).2 _ hs'⟩

theorem reads_lines_session : ∃ s₀,
    main showTextSyntaxHighlighting
      (.session none (unlines [bytesOf "ins-1", bytesOf "x y"])) [] = .ok s₀ ∧
    ReadsLine s₀ (bytesOf "ins-1") (unlines [bytesOf "x y"]) := by
  have htyped : ∀ l ∈ [bytesOf "ins-1", bytesOf "x y"], Typed l := by
    unfold Typed
    decide +kernel
  obtain ⟨s₀, hm, -⟩ := main_shown showTextSyntaxHighlighting
    (.session none (unlines [bytesOf "ins-1", bytesOf "x y"])) [] rfl
    (shows_highlighting (by decide) (by decide))
  obtain ⟨hreads, -⟩ := (reads_lines_iff (b := .session none _) rfl htyped).2 (by decide)
  exact ⟨s₀, hm, hreads 0 _ s₀ rfl (stdin_of_main hm)⟩

/-- A line of 259 bytes: the last four of them are read as a command. -/
theorem reads_cut_line : ∃ s₀ s,
    main showTextSyntaxHighlighting (.session none (unlines
      [bytesOf "ins-1 " ++ List.replicate 249 'x'.toUInt8 ++ bytesOf "exit"])) [] = .ok s₀ ∧
    promptStep showTextSyntaxHighlighting s₀ = .ok s ∧
    s.lines = [List.replicate 248 'x'.toUInt8, []] ∧ s.stdin = bytesOf "exit\n" := by
  obtain ⟨s₀, hm, A⟩ := main_shown showTextSyntaxHighlighting (.session none (unlines
    [bytesOf "ins-1 " ++ List.replicate 249 'x'.toUInt8 ++ bytesOf "exit"])) [] rfl
    (shows_highlighting (by decide) (by decide))
  -- what the round does to the document
  have hround : (Doc.step (Boot.doc (.session none (unlines
      [bytesOf "ins-1 " ++ List.replicate 249 'x'.toUInt8 ++ bytesOf "exit"])) [])).map
        (fun d => (d.lines, d.stdin)) =
      some ([List.replicate 248 'x'.toUInt8, []], bytesOf "exit\n") := by decide +kernel
  obtain ⟨d, hd, hr⟩ := Option.map_eq_some_iff.1 hround
  obtain ⟨hl, hst⟩ := Prod.mk.inj hr
  have hshow : Shows showTextSyntaxHighlighting d :=
    shows_highlighting (by rw [hl]; decide) (by rw [hl]; decide +kernel)
  obtain ⟨s, hs, A', -⟩ := A.step_shown (Boot.doc_wf _ _) (by decide) hd hshow
  exact ⟨s₀, s, hm, hs, A'.lines_eq.trans hl, A'.stdin_eq.trans hst⟩

end Xv6Editor
