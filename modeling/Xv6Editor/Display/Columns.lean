import Xv6Editor.CMem.Trace
import Xv6Editor.Display.Loop

/-!
# The columns the highlighter reads

A second version of the highlighter, which notes every column of the line buffer that it reads.  The
tests are evaluated with C's short circuit, as in `Editor/Display.lean`.  The searches for the first
character that is not a space and for a second quotation mark, which are functions on lists there,
are the loops of the source here, and the characters that are printed are read once more.

* `Columns.highlightLine_result` : the two versions print the same.
* `columns_le` : on a line with zeros behind it no column outside of the buffer is read.
-/

namespace Xv6Editor

namespace Columns

/-! ### The highlighter with notes -/

/-- `text[j][c]`. -/
def read (b : Block 256) (c : ℕ) : Traced ℕ Stuck UInt8 := do
  Traced.note c
  Traced.quiet (col b c)

/-- The `n` columns from `c` on, one after the other. -/
def readFrom (b : Block 256) : ℕ → ℕ → Traced ℕ Stuck (List UInt8)
  | _, 0 => pure []
  | c, n + 1 => do
    let x ← read b c
    let xs ← readFrom b (c + 1) n
    pure (x :: xs)

/-- `for (; c < MAX_LINE_LENGTH; c++) if (p(text[j][c])) break;` for `n` columns from `c` on. -/
def search (b : Block 256) (p : UInt8 → Bool) : ℕ → ℕ → Traced ℕ Stuck (Option ℕ)
  | 0, _ => pure none
  | n + 1, c => do
    let x ← read b c
    if p x then pure (some c) else search b p n (c + 1)

/-- `text[j][mark] == w[0] && text[j][mark+1] == w[1] && ...`. -/
def matchAt (b : Block 256) (mark : ℕ) : Line → Traced ℕ Stuck Bool
  | [] => pure true
  | c :: w => do
    let x ← read b mark
    if x = c then matchAt b (mark + 1) w else pure false

/-- The branch for one kind of token. -/
def applyRule (b : Block 256) (mark : ℕ) : Rule → Traced ℕ Stuck (Option (List Piece × Scan))
  | .digit => do
    let c ← read b mark
    if '0'.toUInt8 ≤ c ∧ c ≤ '9'.toUInt8 then pure (some (paint [0, 33] c, ⟨mark + 1, false⟩))
    else pure none
  | .word look w codes => do
    if mark + look < 256 then
      let found ← matchAt b mark (bytesOf w)
      if found then
        let cs ← readFrom b mark (bytesOf w).length
        pure (some (cs.flatMap (paint codes), ⟨mark + (bytesOf w).length, false⟩))
      else pure none
    else pure none
  | .bracket => do
    let c ← read b mark
    if c ∈ ['\x7b', '\x7d', '[', ']', '(', ')'].map Char.toUInt8 then
      pure (some (paint [1, 35] c, ⟨mark + 1, false⟩))
    else pure none
  | .slash => do
    if mark + 1 < 256 then
      let c ← read b mark
      if c = '/'.toUInt8 then
        let cs ← readFrom b mark 2
        pure (some (cs.flatMap (paint [1, 32]), ⟨mark + 2, true⟩))
      else pure none
    else pure none
  | .quote q => do
    let c ← read b mark
    if c = q.toUInt8 then
      match ← search b (· = q.toUInt8) (256 - (mark + 1)) (mark + 1) with
      | some last =>
        let cs ← readFrom b mark (last + 1 - mark)
        pure (some (cs.flatMap (paint [1, 33]), ⟨last + 1, false⟩))
      | none => pure (some ([], ⟨0, false⟩))
    else pure none

/-- The chain of token branches. -/
def firstRule (b : Block 256) (mark : ℕ) : List Rule → Traced ℕ Stuck (List Piece × Scan)
  | [] => do
    let c ← read b mark
    pure ([.chr c, .sgr [0]], ⟨mark + 1, false⟩)
  | r :: rs => do
    match ← applyRule b mark r with
    | some x => pure x
    | none => firstRule b mark rs

/-- The body of the scanning loop. -/
def scanStep (b : Block 256) (st : Scan) : Traced ℕ Stuck (List Piece × Scan) :=
  if st.annotation then do
    let c ← read b st.mark
    pure (paint [1, 32] c, ⟨st.mark + 1, true⟩)
  else firstRule b st.mark rules

/-- The scanning loop, for at most `fuel` rounds. -/
def scanLoop (b : Block 256) : ℕ → Scan → Traced ℕ Stuck (List Piece)
  | 0, _ => Traced.quiet (.error .hung)
  | fuel + 1, st => do
    if st.mark < 256 then
      let c ← read b st.mark
      if c = 0 then pure []
      else
        let (out, st) ← scanStep b st
        let rest ← scanLoop b fuel st
        pure (out ++ rest)
    else pure []

/-- The highlighter on one line, with at most `fuel` rounds of the scanning loop. -/
def highlightLine (b : Block 256) (fuel : ℕ) : Traced ℕ Stuck (List Piece) := do
  let found ← search b (· ≠ ' '.toUInt8) 256 0
  -- `strcmp(text[j], "\n") == 0`
  let newline ← matchAt b 0 (bytesOf "\n" ++ [0])
  if newline then pure [.lit "\n"]
  else
    let comment ← matchAt b (found.getD 0) (bytesOf "//")
    if comment then
      -- the argument of `%s` is read up to its terminator
      let line ← readFrom b 0 (b.str.length + 1)
      pure [.sgr [1, 32], .str (cstr line), .lit "\n", .sgr [0]]
    else
      let out ← scanLoop b fuel ⟨0, false⟩
      pure (out ++ [.lit "\n"])

variable {zt : Prop} {b : Block 256} {l w : Line} {mark c n fuel : ℕ} {p : UInt8 → Bool}

/-! ### The results -/

@[simp] theorem read_result (b : Block 256) (c : ℕ) : (read b c).result = col b c := rfl

theorem read_of_lt (hc : c < 256) :
    ∃ h : c < b.bytes.length, (read b c).result = .ok b.bytes[c] := by
  have h : c < b.bytes.length := by rw [b.length_bytes]; exact hc
  exact ⟨h, col_of_bytes (List.getElem?_eq_getElem h)⟩

theorem readFrom_result (h : c + n ≤ 256) :
    (readFrom b c n).result = .ok ((b.bytes.drop c).take n) := by
  induction n generalizing c with
  | zero => rfl
  | succ n ih =>
    obtain ⟨hc, hcol⟩ := read_of_lt (b := b) (show c < 256 by omega)
    rw [readFrom, Traced.result_bind_ok hcol, Traced.result_bind_ok (ih (by omega)),
      List.drop_eq_getElem_cons hc, List.take_succ_cons, Traced.result_pure]

theorem search_result (h : c + n = 256) :
    (search b p n c).result = .ok (((b.bytes.drop c).findIdx? p).map (c + ·)) := by
  induction n generalizing c with
  | zero =>
    rw [List.drop_of_length_le (by rw [b.length_bytes]; omega)]
    rfl
  | succ n ih =>
    obtain ⟨hc, hcol⟩ := read_of_lt (b := b) (show c < 256 by omega)
    have hshift : (c + ·) ∘ (· + 1) = (c + 1 + ·) := by
      funext i
      exact (Nat.add_right_comm c 1 i).symm
    rw [search, Traced.result_bind_ok hcol, Traced.result_ite, ih (by omega),
      List.drop_eq_getElem_cons hc, List.findIdx?_cons]
    split_ifs
    · rfl
    · rw [Option.map_map, hshift]

@[simp] theorem matchAt_result (b : Block 256) (mark : ℕ) (w : Line) :
    (matchAt b mark w).result = Xv6Editor.matchAt b mark w := by
  induction w generalizing mark with
  | nil => rfl
  | cons c w ih =>
    simp only [matchAt, Xv6Editor.matchAt, Traced.result_bind, read_result, Traced.result_ite, ih,
      Traced.result_pure]

theorem take_of_matchAt (hm : mark ≤ 256) (h : Xv6Editor.matchAt b mark w = .ok true) :
    mark + w.length ≤ 256 ∧ (b.bytes.drop mark).take w.length = w := by
  induction w generalizing mark with
  | nil => exact ⟨hm, rfl⟩
  | cons a w ih =>
    rcases Nat.lt_or_ge mark 256 with hlt | hge
    · obtain ⟨hc, hcol⟩ := read_of_lt (b := b) hlt
      rw [read_result] at hcol
      simp only [Xv6Editor.matchAt, hcol, bind, Except.bind] at h
      by_cases ha : b.bytes[mark] = a
      · rw [if_pos ha] at h
        obtain ⟨hle, htake⟩ := ih hlt h
        rw [List.drop_eq_getElem_cons hc, List.length_cons, List.take_succ_cons, ha, htake]
        exact ⟨by omega, rfl⟩
      · rw [if_neg ha] at h
        cases h
    · have hnone : b.bytes[mark]? = none :=
        List.getElem?_eq_none (by rw [b.length_bytes]; exact hge)
      simp only [Xv6Editor.matchAt, col, hnone, bind, Except.bind] at h
      cases h

/-- The columns of a word that are printed are those that were compared. -/
theorem applyRule_word (hm : mark < 256) (look : ℕ) (w : String) (codes : List ℕ) :
    (applyRule b mark (.word look w codes)).result = (Rule.word look w codes).apply b mark := by
  simp only [applyRule, Rule.apply, Traced.result_ite, Traced.result_pure, Traced.result_bind,
    matchAt_result]
  split_ifs with hlook
  · cases hw : Xv6Editor.matchAt b mark (bytesOf w) with
    | error e => rfl
    | ok found =>
      cases found with
      | false => rfl
      | true =>
        obtain ⟨hle, htake⟩ := take_of_matchAt hm.le hw
        rw [readFrom_result hle, htake]
        rfl
  · rfl

/-- The columns of a quotation that are printed go up to the closing mark. -/
theorem applyRule_quote (hm : mark < 256) (q : Char) :
    (applyRule b mark (.quote q)).result = (Rule.quote q).apply b mark := by
  obtain ⟨hc, hcol⟩ := read_of_lt (b := b) hm
  have hs := search_result (b := b) (p := (· = q.toUInt8))
    (show mark + 1 + (256 - (mark + 1)) = 256 by omega)
  have hap : (Rule.quote q).apply b mark = if b.bytes[mark] = q.toUInt8 then
      match (b.bytes.drop (mark + 1)).findIdx? (· = q.toUInt8) with
      | some i => .ok (some (((b.bytes.drop mark).take (i + 2)).flatMap (paint [1, 33]),
        ⟨mark + 1 + i + 1, false⟩))
      | none => .ok (some ([], ⟨0, false⟩))
      else .ok none := by
    rw [Rule.apply, (read_result b mark).symm.trans hcol]
    rfl
  rw [applyRule, Traced.result_bind_ok hcol, Traced.result_ite, Traced.result_bind_ok hs, hap]
  cases hf : (b.bytes.drop (mark + 1)).findIdx? (· = q.toUInt8) with
  | none => rfl
  | some i =>
    obtain ⟨hi, -⟩ := List.findIdx?_eq_some_iff_getElem.1 hf
    rw [List.length_drop, b.length_bytes] at hi
    have hr := readFrom_result (b := b) (c := mark) (n := i + 2) (by omega)
    rw [show i + 2 = mark + 1 + i + 1 - mark by omega] at hr
    simp only [Option.map_some]
    rw [Traced.result_bind_ok hr, show mark + 1 + i + 1 - mark = i + 2 by omega]
    rfl

theorem applyRule_result (hm : mark < 256) (rule : Rule) :
    (applyRule b mark rule).result = rule.apply b mark := by
  cases rule with
  | digit | bracket =>
    simp only [applyRule, Rule.apply, Traced.result_bind, read_result, Traced.result_ite,
      Traced.result_pure]
  | word look w codes => exact applyRule_word hm look w codes
  | slash =>
    simp only [applyRule, Rule.apply, Traced.result_ite, Traced.result_pure, Traced.result_bind,
      read_result]
    split_ifs with hlook
    · obtain ⟨hc, hcol⟩ := read_of_lt (b := b) hm
      obtain ⟨hc', hcol'⟩ := read_of_lt (b := b) hlook
      rw [read_result] at hcol hcol'
      rw [readFrom_result (by omega), hcol, hcol', List.drop_eq_getElem_cons hc,
        List.drop_eq_getElem_cons hc']
      rfl
    · rfl
  | quote q => exact applyRule_quote hm q

theorem firstRule_result (hm : mark < 256) (rs : List Rule) :
    (firstRule b mark rs).result = Xv6Editor.firstRule b mark rs := by
  induction rs with
  | nil =>
    rw [firstRule, Traced.result_bind, Xv6Editor.firstRule]
    rfl
  | cons r rs ih =>
    rw [firstRule, Traced.result_bind, applyRule_result hm, Xv6Editor.firstRule]
    congr 1
    funext o
    cases o with
    | none => exact ih
    | some x => rfl

theorem scanStep_result (st : Scan) (hm : st.mark < 256) :
    (scanStep b st).result = Xv6Editor.scanStep b st := by
  rw [scanStep, Traced.result_ite, firstRule_result hm, Traced.result_bind]
  rfl

theorem scanLoop_result (fuel : ℕ) (st : Scan) :
    (scanLoop b fuel st).result = Xv6Editor.scanLoop b fuel st := by
  induction fuel generalizing st with
  | zero => rfl
  | succ fuel ih =>
    rw [scanLoop, Xv6Editor.scanLoop, Traced.result_ite]
    split_ifs with hm
    · simp only [Traced.result_bind, read_result, Traced.result_ite, Traced.result_pure,
        scanStep_result st hm, ih]
    · rfl

/-- `strcmp(text[j], "\n")` compares the string with a newline. -/
theorem matchAt_newline (b : Block 256) :
    Xv6Editor.matchAt b 0 (bytesOf "\n" ++ [0]) = .ok (decide (b.str = bytesOf "\n")) := by
  obtain ⟨x, y, r, hb⟩ : ∃ x y r, b.bytes = x :: y :: r := by
    obtain ⟨h₀, -⟩ := read_of_lt (b := b) (c := 0) (by decide)
    obtain ⟨h₁, -⟩ := read_of_lt (b := b) (c := 1) (by decide)
    rw [← List.drop_zero (l := b.bytes), List.drop_eq_getElem_cons h₀,
      List.drop_eq_getElem_cons h₁]
    exact ⟨_, _, _, rfl⟩
  have hc₀ : col b 0 = .ok x := col_of_bytes (by rw [hb]; rfl)
  have hc₁ : col b 1 = .ok y := col_of_bytes (by rw [hb]; rfl)
  have hstr : b.str = bytesOf "\n" ↔ x = '\n'.toUInt8 ∧ y = 0 := by
    change cstr b.bytes = ['\n'.toUInt8] ↔ _
    rw [hb]
    by_cases hx : x = 0
    · rw [hx, cstr_zero_cons]
      exact iff_of_false (by simp) fun h => absurd h.1 (by decide)
    · by_cases hy : y = 0
      · rw [hy, cstr_cons hx, cstr_zero_cons]
        simp
      · rw [cstr_cons hx, cstr_cons hy]
        simp [hy]
  change Xv6Editor.matchAt b 0 ['\n'.toUInt8, 0] = _
  simp only [Xv6Editor.matchAt, hc₀, hc₁, bind, Except.bind]
  split_ifs with hx hy
  · rw [decide_eq_true (hstr.2 ⟨hx, hy⟩)]
  · rw [decide_eq_false fun h => hy (hstr.1 h).2]
  · rw [decide_eq_false fun h => hx (hstr.1 h).1]

/-- The highlighter with notes is the highlighter. -/
theorem highlightLine_result (h0 : 0 ∈ b.bytes) :
    (highlightLine b 257).result = Xv6Editor.highlightLine b := by
  have hlen := Block.length_str_lt h0
  have hr := readFrom_result (b := b) (c := 0) (n := b.str.length + 1) (by omega)
  have hstr : cstr ((b.bytes.drop 0).take (b.str.length + 1)) = b.str := by
    obtain ⟨t, ht⟩ := exists_eq_cstr_append h0
    have hb : b.bytes = b.str ++ 0 :: t := ht
    rw [List.drop_zero, hb, List.take_length_add_append, List.take_succ_cons, cstr_append_zero,
      cstr_eq_self b.zero_notMem_str]
  have hs := search_result (b := b) (p := (· ≠ ' '.toUInt8)) (show 0 + 256 = 256 from rfl)
  rw [highlightLine, Traced.result_bind_ok hs, Traced.result_bind_ok
    ((matchAt_result ..).trans (matchAt_newline b)), Traced.result_ite, Xv6Editor.highlightLine]
  simp only [decide_eq_true_eq, Traced.result_pure]
  split_ifs
  · rfl
  · have hpos : ((b.bytes.drop 0).findIdx? (· ≠ ' '.toUInt8)).map (0 + ·) =
        b.bytes.findIdx? (· ≠ ' '.toUInt8) := by
      simp
    rw [Traced.result_bind, matchAt_result, hpos]
    change commentLine b >>= _ = commentLine b >>= _
    congr 1
    funext comment
    rw [Traced.result_ite, Traced.result_bind_ok hr, hstr, Traced.result_bind, scanLoop_result]
    rfl

/-! ### The columns -/

theorem read_notes (hc : c ≤ 255) : (read b c).Notes (· ≤ 255) :=
  .bind (.note hc) fun _ _ => .quiet _

theorem readFrom_notes (h : c + n ≤ 256) : (readFrom b c n).Notes (· ≤ 255) := by
  induction n generalizing c with
  | zero => exact .pure _
  | succ n ih =>
    exact .bind (read_notes (by omega)) fun x _ => .bind (ih (by omega)) fun xs _ => .pure _

theorem search_notes (h : c + n ≤ 256) : (search b p n c).Notes (· ≤ 255) := by
  induction n generalizing c with
  | zero => exact .pure _
  | succ n ih =>
    exact .bind (read_notes (by omega)) fun x _ => .ite (fun _ => .pure _) fun _ => ih (by omega)

/-- The look-ahead stops at the terminator of the line at the latest. -/
theorem matchAt_notes (hb : IsLine zt b l) (hw : 0 ∉ w) (hm : mark ≤ l.length) :
    (matchAt b mark w).Notes (· ≤ 255) := by
  have hlen := hb.length_lt
  induction w generalizing mark with
  | nil => exact .pure _
  | cons a w ih =>
    rw [List.mem_cons, not_or] at hw
    refine .bind (read_notes (by omega)) fun x hx => .ite (fun hxa => ?_) fun _ => .pure _
    rcases Nat.lt_or_eq_of_le hm with hlt | rfl
    · exact ih hw.2 hlt
    · -- the terminator is not part of a word
      cases hx.symm.trans (col_length hb)
      exact absurd hxa hw.1

theorem matchAt_notes_of_le (h : mark + w.length ≤ 256) : (matchAt b mark w).Notes (· ≤ 255) := by
  induction w generalizing mark with
  | nil => exact .pure _
  | cons a w ih =>
    rw [List.length_cons] at h
    exact .bind (read_notes (by omega)) fun x _ => .ite (fun _ => ih (by omega)) fun _ => .pure _

theorem applyRule_notes (hb : IsLine zt b l) (hm : mark < l.length) {rule : Rule}
    (hr : rule.Ok) : (applyRule b mark rule).Notes (· ≤ 255) := by
  have hlen := hb.length_lt
  have hread : (read b mark).Notes (· ≤ 255) := read_notes (by omega)
  cases rule with
  | digit | bracket => exact .bind hread fun c _ => .ite (fun _ => .pure _) fun _ => .pure _
  | word look w codes =>
    refine .ite (fun _ => ?_) fun _ => .pure _
    refine .bind (matchAt_notes hb (fun h => (hr.2 0 h).1 rfl) hm.le) fun found hf =>
      .ite (fun ht => ?_) fun _ => .pure _
    subst ht
    obtain ⟨hle, -⟩ := take_of_matchAt (by omega) ((matchAt_result ..).symm.trans hf)
    exact .bind (readFrom_notes hle) fun cs _ => .pure _
  | slash =>
    refine .ite (fun _ => .bind hread fun c _ => .ite (fun _ => ?_) fun _ => .pure _)
      fun _ => .pure _
    exact .bind (readFrom_notes (by omega)) fun cs _ => .pure _
  | quote q =>
    refine .bind hread fun c _ => .ite (fun _ => ?_) fun _ => .pure _
    refine .bind (search_notes (by omega)) fun o ho => ?_
    cases o with
    | none => exact .pure _
    | some last =>
      -- the search ends inside of the buffer
      rw [search_result (by omega)] at ho
      obtain ⟨i, hi, rfl⟩ := Option.map_eq_some_iff.1 (Except.ok.inj ho)
      obtain ⟨hi, -⟩ := List.findIdx?_eq_some_iff_getElem.1 hi
      rw [List.length_drop, b.length_bytes] at hi
      exact .bind (readFrom_notes (by omega)) fun cs _ => .pure _

theorem firstRule_notes (hb : IsLine zt b l) (hm : mark < l.length) (rs : List Rule)
    (hok : ∀ r ∈ rs, r.Ok) : (firstRule b mark rs).Notes (· ≤ 255) := by
  have hlen := hb.length_lt
  induction rs with
  | nil => exact .bind (read_notes (by omega)) fun c _ => .pure _
  | cons r rs ih =>
    refine .bind (applyRule_notes hb hm (hok r (by simp))) fun o _ => ?_
    cases o with
    | none => exact ih fun r h => hok r (by simp [h])
    | some x => exact .pure x

/-- The scanning loop, wherever it is and however long it runs. -/
theorem scanLoop_notes (hb : IsLine True b l) (fuel : ℕ) (st : Scan) :
    (scanLoop b fuel st).Notes (· ≤ 255) := by
  have hlen := hb.length_lt
  induction fuel generalizing st with
  | zero => exact .quiet _
  | succ fuel ih =>
    refine .ite (fun hm => ?_) fun _ => .pure _
    refine .bind (read_notes (by omega)) fun c hc => .ite (fun _ => .pure _) fun hc0 => ?_
    -- the loop goes on only at a column of the line
    have hlt : st.mark < l.length := by
      by_contra hge
      cases hc.symm.trans (col_of_le hb (not_lt.1 hge) hm)
      exact hc0 rfl
    refine .bind (.ite (fun _ => ?_) fun _ => firstRule_notes hb hlt rules rules_ok) fun x _ =>
      .bind (ih x.2) fun rest _ => .pure _
    exact .bind (read_notes (by omega)) fun c _ => .pure _

theorem highlightLine_notes (hb : IsLine True b l) (fuel : ℕ) :
    (highlightLine b fuel).Notes (· ≤ 255) := by
  have hlen := hb.length_lt
  have hstr : b.str = l := hb.2.1
  refine .bind (search_notes le_rfl) fun found hf => ?_
  have hle : found.getD 0 ≤ l.length := by
    obtain ⟨pos, hle, hpos, -⟩ := findIdx?_space hb
    rw [search_result rfl, List.drop_zero, hpos] at hf
    cases hf
    exact (Nat.zero_add pos).trans_le hle
  refine .bind (matchAt_notes_of_le (by decide)) fun _ _ => .ite (fun _ => .pure _) fun _ => ?_
  refine .bind (matchAt_notes hb (by decide) hle) fun _ _ => .ite (fun _ => ?_) fun _ => ?_
  · exact .bind (readFrom_notes (by rw [hstr]; omega)) fun _ _ => .pure _
  · exact .bind (scanLoop_notes hb fuel _) fun _ _ => .pure _

end Columns

/-- On a line with zeros behind it the highlighter reads no column outside of the line buffer, for
any number of rounds of its scanning loop. -/
theorem columns_le {b : Block 256} (h0 : 0 ∈ b.bytes) (hz : b.bytes = pad 256 b.str) :
    (∀ fuel, ∀ c ∈ (Columns.highlightLine b fuel).events, c ≤ 255) ∧
    (Columns.highlightLine b 257).result = highlightLine b := by
  have hb : IsLine True b b.str := ⟨h0, rfl, fun _ => hz⟩
  exact ⟨Columns.highlightLine_notes hb, Columns.highlightLine_result h0⟩

/-- A line on which the scanning loop does not end. -/
theorem columns_le_apostrophe : ¬QuotesClosed (bytesOf "don't continu") ∧ ∀ fuel,
    ∀ c ∈ (Columns.highlightLine (lineBlock (bytesOf "don't continu") (by decide)) fuel).events,
      c ≤ 255 := by
  have hl : IsLine True (lineBlock (bytesOf "don't continu") (by decide))
    (bytesOf "don't continu") := isLine_of_pad (by decide) (by decide) rfl
  exact ⟨by decide, (columns_le hl.1 (by rw [hl.2.1]; rfl)).1⟩

end Xv6Editor
