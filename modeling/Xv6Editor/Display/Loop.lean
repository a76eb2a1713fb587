import Xv6Editor.Display.Scan

/-!
# The scanning loop

What the scanning loop of `show_text_syntax_highlighting` makes of a line, from what its rounds do
(`ScanEffect`, `RoundInk`).

* `QuotesClosed` : every quote before the first slash outside of quotes is closed again.
* `scanLoop_closed` : on such a line the loop ends.  It prints the line, in the colour of comments
  from that slash on.
* `scanLoop_hung` : on any other line it does not end, if it is zero behind the line.
-/

namespace Xv6Editor

/-- Whether the quotations of a text are closed up to the first slash outside of them.  The first
argument is the quotation mark that is waited for, if there is one. -/
def closedFrom : Option UInt8 → Line → Bool
  | none, [] => true
  | some _, [] => false
  | none, c :: l =>
    if c = '/'.toUInt8 then true
    else if IsQuote c then closedFrom (some c) l
    else closedFrom none l
  | some q, c :: l => closedFrom (if c = q then none else some q) l

/-- Every quotation before the first slash outside of quotations is closed. -/
def QuotesClosed (l : Line) : Prop := closedFrom none l = true

instance (l : Line) : Decidable (QuotesClosed l) := inferInstanceAs (Decidable (_ = true))

/-- The first column outside of quotations from which on the line has `p`.  The second argument is
the quotation mark that is waited for, if there is one. -/
def firstOutside (p : Line → Bool) : Option UInt8 → Line → Option ℕ
  | _, [] => none
  | none, c :: l =>
    if p (c :: l) then some 0
    else (firstOutside p (if IsQuote c then some c else none) l).map (· + 1)
  | some q, c :: l => (firstOutside p (if c = q then none else some q) l).map (· + 1)

/-- The first slash outside of quotations. -/
def slashStart (l : Line) : Option ℕ :=
  firstOutside (fun r => r.head? = some '/'.toUInt8) none l

/-- The output shows the line `l`, and `t` behind it, in the colour of comments from the first slash
outside of quotations on; `pre` is what comes before. -/
def Painted (l t : Line) (out : List Piece) : Prop :=
  ∃ pre : List (UInt8 × List ℕ), inks out = pre ++ (l.drop pre.length ++ t).map (·, commentInk) ∧
    pre.map Prod.fst = l.take pre.length ∧ (∀ x ∈ pre, x.2 ≠ commentInk) ∧
    pre.length = (slashStart l).getD l.length ∧ (slashStart l = none → t = [])

variable {zt : Prop} {b : Block 256} {l w r t : Line} {mark fuel : ℕ} {c q : UInt8}
  {out out' : List Piece} {p : Line → Bool}

/-! ### Quotations -/

theorem closedFrom_plain (hw : ∀ c ∈ w, IsPlain c) :
    closedFrom none (w ++ r) = closedFrom none r := by
  induction w with
  | nil => rfl
  | cons c w ih =>
    obtain ⟨hq, hs⟩ := hw c (by simp)
    rw [List.cons_append, closedFrom, if_neg hs, if_neg hq]
    exact ih fun c h => hw c (by simp [h])

theorem closedFrom_quoted (hw : q ∉ w) :
    closedFrom (some q) (w ++ q :: r) = closedFrom none r := by
  induction w with
  | nil => rw [List.nil_append, closedFrom, if_pos rfl]
  | cons c w ih =>
    rw [List.mem_cons, not_or] at hw
    rw [List.cons_append, closedFrom, if_neg (Ne.symm hw.1)]
    exact ih hw.2

theorem closedFrom_unclosed (hr : q ∉ r) : closedFrom (some q) r = false := by
  induction r with
  | nil => rfl
  | cons c r ih =>
    rw [List.mem_cons, not_or] at hr
    rw [closedFrom, if_neg (Ne.symm hr.1)]
    exact ih hr.2

theorem IsQuote.ne_slash (hq : IsQuote q) : q ≠ '/'.toUInt8 := by
  rintro rfl
  exact absurd hq (by decide)

theorem closedFrom_quote (hq : IsQuote q) (r : Line) :
    closedFrom none (q :: r) = closedFrom (some q) r := by
  rw [closedFrom, if_neg hq.ne_slash, if_pos hq]

/-- A quotation that is closed has its second mark on the line. -/
theorem QuotesClosed.mem (h : QuotesClosed (c :: r)) (hq : IsQuote c) : c ∈ r := by
  by_contra hr
  rw [QuotesClosed, closedFrom_quote hq, closedFrom_unclosed hr] at h
  cases h

section Outside

variable (hp : ∀ c r, p (c :: r) = true → c = '/'.toUInt8)
include hp

theorem firstOutside_plain (hw : ∀ c ∈ w, IsPlain c) :
    firstOutside p none (w ++ r) = (firstOutside p none r).map (· + w.length) := by
  induction w with
  | nil => simp
  | cons c w ih =>
    obtain ⟨hq, hs⟩ := hw c (by simp)
    rw [List.cons_append, firstOutside, if_neg fun h => hs (hp _ _ h), if_neg hq,
      ih fun c h => hw c (by simp [h]), Option.map_map]
    rfl

theorem firstOutside_quote (hq : IsQuote q) (hw : q ∉ w) :
    firstOutside p none (q :: (w ++ q :: r)) =
      (firstOutside p none r).map (· + (w.length + 2)) := by
  have hin : firstOutside p (some q) (w ++ q :: r) =
      (firstOutside p none r).map (· + (w.length + 1)) := by
    induction w with
    | nil => rw [List.nil_append, firstOutside, if_pos rfl]; rfl
    | cons c w ih =>
      rw [List.mem_cons, not_or] at hw
      rw [List.cons_append, firstOutside, if_neg (Ne.symm hw.1), ih hw.2, Option.map_map]
      rfl
  rw [firstOutside, if_neg fun h => hq.ne_slash (hp _ _ h), if_pos hq, hin, Option.map_map]
  rfl

end Outside

theorem slashStart_slash (r : Line) : slashStart ('/'.toUInt8 :: r) = some 0 := by
  rw [slashStart, firstOutside, if_pos (by simp)]

theorem slashStart_plain (hw : ∀ c ∈ w, IsPlain c) :
    slashStart (w ++ r) = (slashStart r).map (· + w.length) :=
  firstOutside_plain (fun c r h => by simpa using h) hw

theorem slashStart_quote (hq : IsQuote q) (hw : q ∉ w) :
    slashStart (q :: (w ++ q :: r)) = (slashStart r).map (· + (w.length + 2)) :=
  firstOutside_quote (fun c r h => by simpa using h) hq hw

/-! ### Rounds -/

/-- A round goes on behind what it has printed, or starts a comment, or goes back because of a
quotation that is not closed. -/
theorem ScanEffect.cases {st : Scan} (E : ScanEffect l mark (out, st)) :
    (∃ m, st = ⟨m, false⟩ ∧ mark < m ∧ m ≤ l.length ∧ l.drop mark = shown out ++ l.drop m ∧
      (QuotesClosed (l.drop mark) ↔ QuotesClosed (l.drop m)) ∧
      slashStart (l.drop mark) = (slashStart (l.drop m)).map (· + (shown out).length)) ∨
    (st = ⟨mark + 2, true⟩ ∧ (∃ r, l.drop mark = '/'.toUInt8 :: r) ∧
      l.drop mark = shown out ++ l.drop (mark + 2) ∧ QuotesClosed (l.drop mark)) ∨
    (st = ⟨0, false⟩ ∧ ¬QuotesClosed (l.drop mark)) := by
  cases E with
  | @plain out w r hd hw hp ho =>
    have hdrop : l.drop (mark + w.length) = r := by rw [← List.drop_drop, hd, List.drop_left]
    have hpos := List.length_pos_of_ne_nil hw
    have hlen := congrArg List.length hd
    rw [List.length_drop, List.length_append] at hlen
    refine .inl ⟨_, rfl, by omega, by omega, by rw [hdrop, ho, hd], ?_, ?_⟩
    · rw [hd, QuotesClosed, closedFrom_plain hp, hdrop]
      rfl
    · rw [hd, hdrop, ho, slashStart_plain hp]
  | @quoted out q w r hd hq hw ho =>
    have hdrop : l.drop (mark + (w.length + 2)) = r := by
      rw [← List.drop_drop, hd, List.drop_succ_cons, ← List.drop_drop, List.drop_left]
      rfl
    have hlen := congrArg List.length hd
    rw [List.length_drop, List.length_cons, List.length_append, List.length_cons] at hlen
    refine .inl ⟨_, rfl, by omega, by omega, by rw [hdrop, ho, hd]; simp, ?_, ?_⟩
    · rw [hd, QuotesClosed, closedFrom_quote hq, closedFrom_quoted hw, hdrop]
      rfl
    · have hlen : (q :: (w ++ [q])).length = w.length + 2 := by simp
      rw [hd, hdrop, ho, hlen, slashStart_quote hq hw]
  | @comment out r hd ho =>
    have hdrop : l.drop (mark + 2) = ('/'.toUInt8 :: r).drop 2 := by rw [← List.drop_drop, hd]
    refine .inr (.inl ⟨rfl, ⟨r, hd⟩, ?_, by rw [hd]; rfl⟩)
    rw [hdrop, ho, hd, List.take_append_drop]
  | @unclosed q r hd hq hr =>
    refine .inr (.inr ⟨rfl, ?_⟩)
    rw [hd, QuotesClosed, closedFrom_quote hq, closedFrom_unclosed hr]
    exact Bool.false_ne_true

theorem scanLoop_end (hb : IsLine zt b l) (fuel : ℕ) :
    scanLoop b (fuel + 1) ⟨l.length, false⟩ = .ok [] := by
  rw [scanLoop, if_pos hb.length_lt]
  simp only [col_length hb, bind, Except.bind, if_true]

theorem scanLoop_succ (hc : col b mark = .ok c) (hc0 : c ≠ 0) (hm : mark < 256) {a : Bool}
    {st : Scan} (hs : scanStep b ⟨mark, a⟩ = .ok (out, st)) (fuel : ℕ) :
    scanLoop b (fuel + 1) ⟨mark, a⟩ = (scanLoop b fuel st).map (out ++ ·) := by
  rw [scanLoop, if_pos hm]
  simp only [hc, bind, Except.bind, if_neg hc0, hs]
  cases scanLoop b fuel st <;> rfl

/-! ### Comments -/

/-- In a comment everything up to the next NUL is printed, whatever is in the buffer. -/
theorem scanLoop_comment (b : Block 256) (mark : ℕ) (hf : 256 - mark < fuel) :
    scanLoop b fuel ⟨mark, true⟩ =
      .ok ((cstr (b.bytes.drop mark)).flatMap (paint commentInk)) := by
  induction fuel generalizing mark with
  | zero => omega
  | succ fuel ih =>
    by_cases hm : mark < 256
    · have hlt : mark < b.bytes.length := by rw [b.length_bytes]; exact hm
      have hcol : col b mark = .ok b.bytes[mark] := col_of_bytes (List.getElem?_eq_getElem hlt)
      rw [List.drop_eq_getElem_cons hlt]
      by_cases hc : b.bytes[mark] = 0
      · rw [scanLoop, if_pos hm, hc, cstr_zero_cons]
        simp only [hcol, hc, bind, Except.bind, if_true]
        rfl
      · have hs : scanStep b ⟨mark, true⟩ =
            .ok (paint commentInk b.bytes[mark], ⟨mark + 1, true⟩) := by
          simp only [scanStep, if_true, hcol, bind, Except.bind]
          rfl
        rw [scanLoop_succ hcol hc hm hs, ih (mark + 1) (by omega), cstr_cons hc]
        rfl
    · rw [scanLoop, if_neg hm, List.drop_of_length_le (by rw [b.length_bytes]; omega)]
      rfl

theorem IsLine.cstr_drop (hb : IsLine zt b l) (hm : mark ≤ l.length) :
    cstr (b.bytes.drop mark) = l.drop mark := by
  obtain ⟨t, ht⟩ := hb.drop_bytes hm
  rw [ht, cstr_append_zero, cstr_eq_self fun h => hb.zero_notMem (List.mem_of_mem_drop h)]

theorem IsLine.cstr_behind (hb : IsLine True b l) (hm : l.length ≤ mark) :
    cstr (b.bytes.drop mark) = [] := by
  have hpad : b.bytes = pad 256 l := hb.2.2 trivial
  rw [hpad, pad, List.drop_append, List.drop_of_length_le hm, List.nil_append, List.drop_replicate]
  cases 256 - l.length - (mark - l.length) with
  | zero => rfl
  | succ n => rw [List.replicate_succ, cstr_zero_cons]

/-- The characters of a comment. -/
theorem comment_painted (hd : l.drop mark = '/'.toUInt8 :: r) (hb : IsLine zt b l)
    (hi : RoundInk (out, ⟨mark + 2, true⟩))
    (hs : l.drop mark = shown out ++ l.drop (mark + 2)) :
    ∃ t, Painted (l.drop mark) t
      (out ++ (cstr (b.bytes.drop (mark + 2))).flatMap (paint commentInk)) ∧ (zt → t = []) := by
  cases hi with
  | comment w =>
    have hlt := lt_of_drop hd
    -- what is printed is the rest of the line, and what is behind it if the slash is at its end
    obtain ⟨t, ht, hz⟩ : ∃ t, cstr (b.bytes.drop (mark + 2)) = l.drop (mark + 2) ++ t ∧
        (zt → t = []) := by
      rcases Nat.lt_or_ge l.length (mark + 2) with h | h
      · rw [List.drop_of_length_le h.le]
        exact ⟨_, rfl, fun hz => (hb.mono fun _ => hz).cstr_behind h.le⟩
      · exact ⟨[], by rw [hb.cstr_drop h, List.append_nil], fun _ => rfl⟩
    refine ⟨t, ⟨[], ?_, rfl, nofun, by rw [hd, slashStart_slash]; rfl, fun h => ?_⟩, hz⟩
    · rw [inks_append (lastInk_paint w), inks_paint, inks_paint, shown_paint (zero_notMem_cstr _),
        ht, ← List.map_append, ← List.append_assoc, ← hs]
      rfl
    · rw [hd, slashStart_slash] at h
      cases h

theorem Painted.cons {r : Line} (hl : l = shown out ++ r) (hi : lastInk [0] out = [0])
    (hc : .sgr commentInk ∉ out) (hs : slashStart l = (slashStart r).map (· + (shown out).length))
    (H : Painted r t out') : Painted l t (out ++ out') := by
  obtain ⟨pre, hinks, hfst, hne, hlen, ht⟩ := H
  have hpre : (inks out).length = (shown out).length := by
    rw [← map_fst_inks, List.length_map]
  refine ⟨inks out ++ pre, ?_, ?_, fun x hx => ?_, ?_, fun h => ht ?_⟩
  · rw [inks_append hi, hinks, List.append_assoc, hl, List.length_append, hpre,
      List.drop_length_add_append]
  · rw [List.map_append, map_fst_inks, hfst, hl, List.length_append, hpre,
      List.take_length_add_append]
  · rcases List.mem_append.1 hx with hx | hx
    · exact ne_of_mem_coloured (by decide) hc (List.mem_of_mem_filter hx)
    · exact hne x hx
  · rw [List.length_append, hpre, hlen, hs, hl, List.length_append]
    cases slashStart r with
    | none => rfl
    | some j => exact Nat.add_comm _ _
  · rw [hs] at h
    exact Option.map_eq_none_iff.1 h

theorem Painted.shown_eq (H : Painted l t out) : shown out = l ++ t := by
  obtain ⟨pre, hinks, hfst, -⟩ := H
  rw [← map_fst_inks, hinks, List.map_append, hfst, List.map_map]
  change _ ++ List.map id _ = _
  rw [List.map_id, ← List.append_assoc, List.take_append_drop]

/-! ### The loop -/

/-- A line whose quotations are closed is printed as it is. -/
theorem scanLoop_closed (mark : ℕ) (hb : IsLine zt b l) (hm : mark ≤ l.length)
    (hc : QuotesClosed (l.drop mark)) (hf : 256 - mark < fuel) :
    ∃ out t, scanLoop b fuel ⟨mark, false⟩ = .ok out ∧ Painted (l.drop mark) t out ∧
      (zt → t = []) := by
  have hlen := hb.length_lt
  induction fuel generalizing mark with
  | zero => omega
  | succ fuel ih =>
    cases hd : l.drop mark with
    | nil =>
      obtain rfl : mark = l.length := Nat.le_antisymm hm (List.drop_eq_nil_iff.1 hd)
      exact ⟨[], [], scanLoop_end hb fuel, ⟨[], rfl, rfl, nofun, rfl, fun _ => rfl⟩, fun _ => rfl⟩
    | cons c r =>
      have hlt := lt_of_drop hd
      obtain ⟨⟨out, st⟩, hs, hE⟩ := scanStep_effect hb hd (.inr (hd ▸ hc).mem)
      have hi := scanStep_ink hs
      rw [scanLoop_succ (col_of_drop hb hd) (ne_zero_of_drop hb hd) (by omega) hs, ← hd]
      obtain ⟨m, rfl, hm, hml, hdrop, hiff, hslash⟩ | ⟨rfl, ⟨r', hd'⟩, hdrop, -⟩ | ⟨-, hn⟩ :=
        hE.cases
      · cases hi with
        | other hl hg =>
          obtain ⟨out', t, ho, H, hz⟩ := ih m hml (hiff.1 hc) (by omega)
          exact ⟨out ++ out', t, by rw [ho]; rfl, .cons hdrop hl hg hslash H, hz⟩
      · obtain ⟨t, H, hz⟩ := comment_painted hd' hb hi hdrop
        exact ⟨_, t, by rw [scanLoop_comment b (mark + 2) (by omega)]; rfl, H, hz⟩
      · exact absurd hc hn

/-- On any other line the loop goes round for ever. -/
theorem scanLoop_hung (mark : ℕ) (hb : IsLine True b l) (hl : ¬QuotesClosed l)
    (hc : ¬QuotesClosed (l.drop mark)) : scanLoop b fuel ⟨mark, false⟩ = .error .hung := by
  have hlen := hb.length_lt
  -- wherever the loop is, an open quotation is ahead of it
  induction fuel generalizing mark with
  | zero => rfl
  | succ fuel ih =>
    cases hd : l.drop mark with
    | nil => exact absurd (by rw [hd]; rfl) hc
    | cons c r =>
      have hlt := lt_of_drop hd
      obtain ⟨⟨out, st⟩, hs, hE⟩ := scanStep_effect hb hd (.inl trivial)
      rw [scanLoop_succ (col_of_drop hb hd) (ne_zero_of_drop hb hd) (by omega) hs]
      obtain ⟨m, rfl, -, -, -, hiff, -⟩ | ⟨-, -, -, hclosed⟩ | ⟨rfl, -⟩ := hE.cases
      · rw [ih m (mt hiff.2 hc)]
        rfl
      · exact absurd hclosed hc
      · -- back at the start of the line
        rw [ih 0 hl]
        rfl

theorem isLine_of_pad (h0 : 0 ∉ l) (hlen : l.length ≤ 255) (hb : b.bytes = pad 256 l) :
    IsLine True b l := by
  have hz : 0 ∈ pad 256 l := by
    rw [pad, List.mem_append, List.mem_replicate]
    exact .inr ⟨by omega, rfl⟩
  exact ⟨hb ▸ hz, by rw [Block.str, hb, cstr_pad h0 (by omega)], fun _ => hb⟩

/-- The scanning loop comes to the end of a line if and only if every quotation that is opened
before the first slash outside of quotations is closed again. -/
theorem scanLoop_ends_iff (h0 : 0 ∉ l) (hlen : l.length ≤ 255) (hb : b.bytes = pad 256 l) :
    (∃ fuel out, scanLoop b fuel ⟨0, false⟩ = .ok out) ↔ QuotesClosed l := by
  have hl := isLine_of_pad h0 hlen hb
  constructor
  · rintro ⟨fuel, out, h⟩
    by_contra hc
    cases h.symm.trans (scanLoop_hung 0 hl hc hc)
  · intro hc
    obtain ⟨out, -, ho, -⟩ := scanLoop_closed 0 hl (Nat.zero_le _) hc (Nat.lt_succ_self _)
    exact ⟨_, out, ho⟩

/-- The block with the line `l`. -/
def lineBlock (l : Line) (h : l.length ≤ 255) : Block 256 := ⟨pad 256 l, length_pad (by omega)⟩

theorem scanLoop_ends_quoted : ∃ fuel out,
    scanLoop (lineBlock (bytesOf "puts(\"a\"); // it's") (by decide)) fuel ⟨0, false⟩ = .ok out :=
  (scanLoop_ends_iff (by decide) (by decide) rfl).2 (by decide)

/-- An apostrophe hangs the editor. -/
theorem scanLoop_apostrophe :
    ¬∃ fuel out, scanLoop (lineBlock (bytesOf "don't") (by decide)) fuel ⟨0, false⟩ = .ok out := by
  rintro ⟨fuel, out, h⟩
  have hl : IsLine True (lineBlock (bytesOf "don't") (by decide)) (bytesOf "don't") :=
    isLine_of_pad (by decide) (by decide) rfl
  cases h.symm.trans (scanLoop_hung 0 hl (by decide) (by decide))

end Xv6Editor
