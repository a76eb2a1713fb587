import Xv6Editor.CMem.Ensures
import Xv6Editor.Display.Text
import Xv6Editor.Runs.Capacity

/-!
# The bytes behind the lines

The highlighter looks for a closing quote up to the end of the line buffer, so what is behind the
terminator matters to it.  `ZeroTails s` says that there are only zeros there.  Every function
clears a block before it copies a string over a longer one, with one exception: `com_init_file`
copies its lines into blocks as `malloc` has left them.

* `initShift_blocks` : the blocks of the demo text.
* `Abs.zeroTails_step` : what one round does.
* `zeroTails_iff` : along a run the bytes behind the lines are zero if and only if every `init` got
  blocks with zeros there.
-/

namespace Xv6Editor

/-- The bytes from the first NUL on are zero. -/
def Block.ZeroTail {n : ℕ} (b : Block n) : Prop := ∀ x ∈ b.bytes.drop b.str.length, x = 0

instance {n : ℕ} (b : Block n) : Decidable b.ZeroTail := inferInstanceAs (Decidable (∀ _ ∈ _, _))

/-- The bytes behind the string in every line buffer are zero. -/
def ZeroTails (s : State) : Prop :=
  ∀ (i : ℕ) (p : Ptr) (b : Block 256), s.text[i]? = some (some p) → s.heap.get p = some b →
    b.ZeroTail

/-- The blocks to come are zero behind the lines `init`, which are to be copied into them. -/
def CleanFor (h : Heap (Block 256)) (init : List Line) : Prop :=
  ∀ x ∈ init.zipIdx, ∀ y ∈ (h.junk (h.next + x.2)).bytes.drop (x.1.length + 1), y = 0

instance (h : Heap (Block 256)) (init : List Line) : Decidable (CleanFor h init) :=
  inferInstanceAs (Decidable (∀ _ ∈ _, _))

variable {disp : Display} {zt : Prop} {s s₀ s' : State} {d : Doc} {ps qs : List Ptr}
  {ls log init : List Line} {b : Block 256} {l : Line} {i : ℕ} {m : List UInt8}

/-! ### One block -/

theorem Block.zeroTail_iff (b : Block 256) : b.ZeroTail ↔ b.bytes = pad 256 b.str := by
  obtain ⟨t, ht⟩ : b.str <+: b.bytes := List.takeWhile_prefix _
  have hlen := congrArg List.length ht
  rw [List.length_append, b.length_bytes] at hlen
  rw [Block.ZeroTail, ← ht, List.drop_left, pad, List.append_cancel_left_eq,
    List.eq_replicate_iff]
  exact ⟨fun h => ⟨by omega, h⟩, And.right⟩

/-- What `strcpy` leaves behind the string was there before. -/
theorem Block.zeroTail_strcpy (hb : b.bytes = strcpy m l) (hl : 0 ∉ l) :
    b.ZeroTail ↔ ∀ x ∈ m.drop (l.length + 1), x = 0 := by
  have hstr : b.str = l := by rw [Block.str, hb, cstr_strcpy m hl]
  rw [Block.ZeroTail, hstr, hb, strcpy_eq, List.drop_left, List.forall_mem_cons]
  exact ⟨fun h => h.2, fun h => ⟨rfl, h⟩⟩

theorem isLine_true_iff : IsLine True b l ↔ IsLine False b l ∧ b.ZeroTail := by
  rw [b.zeroTail_iff]
  constructor
  · rintro ⟨h0, rfl, hz⟩
    exact ⟨⟨h0, rfl, False.elim⟩, hz trivial⟩
  · rintro ⟨⟨h0, rfl, -⟩, hz⟩
    exact ⟨h0, rfl, fun _ => hz⟩

/-! ### Represented lines -/

theorem Rep.zeroTails (H : Rep True s ps ls qs log) : ZeroTails s := by
  intro i p b hp hb
  obtain ⟨l, b', -, hb', hl⟩ := H.lines_holds.exists_block (H.text_eq_some hp)
  cases hb.symm.trans hb'
  exact (isLine_true_iff.1 hl).2

theorem Rep.of_zeroTails (H : Rep False s ps ls qs log) (hz : ZeroTails s) :
    Rep True s ps ls qs log := by
  refine { H with lines_holds := ⟨H.length_eq, fun i p l hp hl => ?_⟩ }
  obtain ⟨b, hb, hbl⟩ := H.lines_holds.2 i p l hp hl
  obtain ⟨hi, -⟩ := List.getElem?_eq_some_iff.1 hp
  have hi' : i < 256 := Nat.lt_of_lt_of_le hi H.length_ps
  have hslot : s.text[i]? = some (some p) := by
    rw [← Vector.getElem?_toList, H.text_eq, getElem?_slots hi' H.length_ps, hp]
  exact ⟨b, hb, isLine_true_iff.2 ⟨hbl, hz i p b hslot hb⟩⟩

theorem Abs.zeroTails (A : Abs True s d) : ZeroTails s := by
  obtain ⟨ps, qs, H⟩ := A.rep
  exact H.zeroTails

theorem Abs.of_zeroTails (A : Abs False s d) (hz : ZeroTails s) : Abs True s d := by
  obtain ⟨ps, qs, H⟩ := A.rep
  exact { A with rep := ⟨ps, qs, H.of_zeroTails hz⟩ }

/-! ### The demo text -/

/-- The slots from `i` on hold new blocks, one for each line; the other slots, and the blocks in
use, are as they were. -/
theorem initShift_blocks (hi : i + init.length ≤ 256)
    (hinit : ∀ l ∈ init, 0 ∉ l ∧ l.length < 256) (h : initShift i init s = .ok s') :
    (∀ j l, init[j]? = some l → s'.text[i + j]? = some (some (s.heap.next + j)) ∧
      ∃ b, s'.heap.get (s.heap.next + j) = some b ∧
        b.bytes = strcpy (s.heap.junk (s.heap.next + j)).bytes l) ∧
    (∀ j, j < i ∨ i + init.length ≤ j → s'.text[j]? = s.text[j]?) ∧
    ∀ p < s.heap.next, s'.heap.get p = s.heap.get p := by
  induction init generalizing i s with
  | nil =>
    cases h
    exact ⟨nofun, fun _ _ => rfl, fun _ _ => rfl⟩
  | cons l init ih =>
    rw [List.length_cons] at hi
    obtain ⟨hl, hlen⟩ := hinit l List.mem_cons_self
    obtain ⟨b, hp, -, hb, hs, hround⟩ := initShift_round s (by omega : i < 256) hl hlen init
    rw [hround] at h
    obtain ⟨hnew, htext, hheap⟩ := ih (by omega) (fun l hl => hinit l (List.mem_cons_of_mem _ hl)) h
    have hnext : hp.next = s.heap.next + 1 := Heap.next_store hs
    have hjunk : hp.junk = s.heap.junk := (Heap.junk_store hs).trans rfl
    simp only [hnext, hjunk] at hnew hheap
    refine ⟨fun j l' hj => ?_, fun j hj => ?_, fun p hlt => ?_⟩
    · cases j with
      | zero =>
        cases hj
        refine ⟨?_, b, ?_, hb⟩
        · rw [htext _ (.inl (by omega))]
          exact Vector.getElem?_set_self (by omega)
        · rw [hheap _ (by omega)]
          exact Heap.get_store_self hs
      | succ j =>
        rw [Nat.add_comm j, ← Nat.add_assoc, ← Nat.add_assoc]
        exact hnew j l' hj
    · rw [List.length_cons] at hj
      rw [htext j (by omega)]
      exact Vector.getElem?_set_ne (by omega) (by omega)
    · rw [hheap p (by omega)]
      have hne : p ≠ s.heap.next := by omega
      rw [Heap.get_store_of_ne hs hne]
      exact Function.update_of_ne hne ..

theorem comInitFile_memory (disp : Display) (s : State) :
    Ensures (fun s' => ∃ s₁, initShift 0 initText s = .ok s₁ ∧ s'.text = s₁.text ∧
      s'.heap = s₁.heap) (comInitFile disp s) := by
  rw [comInitFile]
  cases hi : initShift 0 initText s with
  | error e => exact .error e
  | ok s₁ =>
    refine .bind (P := (· = s₁)) (.ok rfl) ?_
    rintro _ rfl
    exact .bind (.trivial _) fun out _ => .ok ⟨_, rfl, rfl, rfl⟩

theorem Abs.zeroTails_init (A : Abs True s d) (h : comInitFile disp s = .ok s') :
    ZeroTails s' ↔ CleanFor s.heap initText := by
  obtain ⟨s₁, hi, ht, hh⟩ := comInitFile_memory disp s s' h
  obtain ⟨hnew, hold, hheap⟩ := initShift_blocks (by rw [length_initText]; omega)
    (fun l hl => (initText_spec l hl).1) hi
  simp only [Nat.zero_add, ← ht, ← hh] at hnew hold hheap
  constructor
  · rintro hz ⟨l, j⟩ hx
    rw [List.mem_zipIdx_iff_getElem?] at hx
    obtain ⟨hslot, b, hget, hb⟩ := hnew j l hx
    have hl := (initText_spec l (List.mem_of_getElem? hx)).1.1
    exact (Block.zeroTail_strcpy hb hl).1 (hz j _ b hslot hget)
  · intro hc i p b hp hb
    cases hx : initText[i]? with
    | some l =>
      -- one of the new lines
      obtain ⟨hslot, b', hget, hb'⟩ := hnew i l hx
      cases hp.symm.trans hslot
      cases hb.symm.trans hget
      have hl := (initText_spec l (List.mem_of_getElem? hx)).1.1
      exact (Block.zeroTail_strcpy hb' hl).2 (hc (l, i) (List.mem_zipIdx_iff_getElem?.2 hx))
    | none =>
      -- a line behind them, which is as it was
      rw [hold i (.inr (List.getElem?_eq_none_iff.1 hx))] at hp
      obtain ⟨ps, qs, H⟩ := A.rep
      have hlt := Heap.lt_next (H.lines_holds.isSome (List.mem_of_getElem? (H.text_eq_some hp)))
      rw [hheap p hlt] at hb
      exact A.zeroTails i p b hp hb

/-! ### Runs -/

/-- A round keeps the bytes behind the lines zero, unless it is an `init` that gets other blocks. -/
theorem Abs.zeroTails_step (A : Abs True s d) (W : d.Wf) (hk : d.lines.length ≤ 255)
    (h : Step disp s s') : ZeroTails s' ↔ (s.command = .init → CleanFor s.heap initText) := by
  by_cases hcmd : s.command = .init
  · have hstep := h
    rw [Step, promptStep_eq, ← State.command, hcmd] at hstep
    split_ifs at hstep
    · cases hstep
    · have A₁ : Abs True _ { d with stdin := (gets s.stdin).2 } :=
        { (A.toMem.withStdin (gets s.stdin).2).print [.lit ">>> ", .sgr [1, 33], .sgr [0]] with
          lineNumber_eq := A.lineNumber_eq }
      rw [A₁.zeroTails_init hstep]
      exact ⟨fun h _ => h, fun h => h hcmd⟩
  · obtain ⟨d', -, A'⟩ := (A.promptStep disp W.lines_ne hk W.newest).exists_doc h
    have A' : Abs True s' d' := A'.mono fun _ => ⟨trivial, A.command_eq ▸ hcmd⟩
    exact ⟨fun _ hi => absurd hi hcmd, fun _ => A'.zeroTails⟩

theorem Abs.zeroTails_chain {ss : List State} (A : Abs True s d) (W : d.Wf)
    (hk : d.lines.length ≤ 255) (hss : List.IsChain (StepWithin disp 255) (s :: ss)) :
    (∀ s' ∈ s :: ss, ZeroTails s') ↔
      ∀ s' ∈ (s :: ss).dropLast, s'.command = .init → CleanFor s'.heap initText := by
  induction ss generalizing s d with
  | nil => simpa using A.zeroTails
  | cons s₁ ss ih =>
    obtain ⟨hstep, hss⟩ := List.isChain_cons_cons.1 hss
    rw [List.dropLast_cons_cons, List.forall_mem_cons (l := s₁ :: ss),
      List.forall_mem_cons (l := (s₁ :: ss).dropLast), ← A.zeroTails_step W hk hstep.1]
    by_cases hz : ZeroTails s₁
    · obtain ⟨d₁, -, A₁, W₁⟩ := (A.mono False.elim).step_of_ok W hk hstep.1
      rw [ih (A₁.of_zeroTails hz) W₁ (A₁.lines_eq ▸ hstep.2) hss]
      exact and_congr_left fun _ => iff_of_true A.zeroTails hz
    · exact iff_of_false (fun h => hz (h.2 s₁ List.mem_cons_self)) fun h => hz h.1

/-- On a file without NULs, with at most 255 lines all the time, the bytes behind the lines are zero
at every prompt if and only if every `init` got blocks that are zero behind its lines. -/
theorem zeroTails_iff {b : Boot} {reads : List (List UInt8)} {ss : List State}
    (hc : ∀ bs, b.file = some bs → Cuts bs reads ∧ 0 ∉ bs) (hm : main disp b reads = .ok s₀)
    (hk : s₀.lines.length ≤ 255) (hss : List.IsChain (StepWithin disp 255) (s₀ :: ss)) :
    (∀ s ∈ s₀ :: ss, ZeroTails s) ↔
      ∀ s ∈ (s₀ :: ss).dropLast, s.command = .init → CleanFor s.heap initText := by
  have A : Abs True s₀ (b.doc reads) := by
    refine .of_main (fun _ bs hf => ?_) hm
    obtain ⟨⟨hflat, -⟩, h0⟩ := hc bs hf
    rwa [hflat]
  exact A.zeroTails_chain (b.doc_wf reads) (A.lines_eq ▸ hk) hss

/-- `mod-1 c` on the file `ab`. -/
theorem zeroTails_shorter : ∃ s₀ s, Step noDisplay s₀ s ∧ s₀.lines = [bytesOf "ab"] ∧
    s.lines = [bytesOf "c"] ∧ ∀ s' ∈ [s₀, s], ZeroTails s' := by
  obtain ⟨s₀, hm, A⟩ := main_shown noDisplay
    (.session (some (bytesOf "ab")) (bytesOf "mod-1 c\n")) [bytesOf "ab"] rfl (shows_noDisplay _)
  have hl₀ : s₀.lines = [bytesOf "ab"] := A.lines_eq
  have hcmd : s₀.command ≠ .init := by rw [A.command_eq]; decide +kernel
  obtain ⟨s, hs, A', -⟩ := A.step_shown (Boot.doc_wf _ _) (by decide) rfl (shows_noDisplay _)
  have hl : s.lines = [bytesOf "c"] := A'.lines_eq
  refine ⟨s₀, s, hs, hl₀, hl, (zeroTails_iff ?_ hm (by rw [hl₀]; decide) ?_).2 ?_⟩
  · rintro _ ⟨⟩
    decide
  · exact .cons_cons ⟨hs, by rw [hl]; decide⟩ (.singleton s)
  · rintro s' hs' h
    cases List.mem_singleton.1 hs'
    exact absurd h hcmd

theorem initText_closed : ∀ l ∈ initText, QuotesClosed l := by decide +kernel

/-- An allocator that hands out blocks full of `!`. -/
def Boot.fullOfMarks (input : List UInt8) : Boot :=
  { Boot.session none input with
    junk := fun _ => ⟨List.replicate 256 '!'.toUInt8, List.length_replicate⟩ }

/-- `init` with such blocks: the demo text is shown, and the next prompt is reached. -/
theorem not_zeroTails_init : ∃ s₀ s,
    main showTextSyntaxHighlighting (.fullOfMarks (bytesOf "init\n")) [] = .ok s₀ ∧
    StepWithin showTextSyntaxHighlighting 255 s₀ s ∧ s₀.command = .init ∧ ¬ZeroTails s := by
  obtain ⟨s₀, hm, h₀⟩ := exists_of_returns
    (r := main showTextSyntaxHighlighting (.fullOfMarks (bytesOf "init\n")) [])
    (p := fun s => s.command = .init && !decide (CleanFor s.heap initText)) (by decide +kernel)
  simp only [Bool.and_eq_true, decide_eq_true_eq, Bool.not_eq_true', decide_eq_false_iff_not] at h₀
  obtain ⟨hcmd, hclean⟩ := h₀
  have A : Abs True s₀ (Boot.doc (.fullOfMarks (bytesOf "init\n")) []) :=
    .of_main (by rintro - _ ⟨⟩) hm
  have W := Boot.doc_wf (.fullOfMarks (bytesOf "init\n")) []
  obtain ⟨d', hd, hl⟩ : ∃ d', Doc.step (Boot.doc (.fullOfMarks (bytesOf "init\n")) []) =
    some d' ∧ d'.lines = initText := ⟨_, rfl, rfl⟩
  have hk : d'.lines.length ≤ 255 := by rw [hl, length_initText]; decide
  obtain ⟨s, hs, A', -⟩ := (A.mono False.elim).step_shown W (by decide) hd
    (shows_highlighting hk (hl ▸ initText_closed))
  refine ⟨s₀, s, hm, ⟨hs, A'.lines_eq ▸ hk⟩, hcmd, fun hz => hclean ?_⟩
  exact (A.zeroTails_step W (by decide) hs).1 hz hcmd

end Xv6Editor
