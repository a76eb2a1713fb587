import Xv6Editor.CMem.Ensures
import Xv6Editor.Rep.Basic

/-!
# One round of the scanning loop

What a round of the scanning loop of `show_text_syntax_highlighting` does.  `ScanEffect` lists what
it can do to the part of the line that is left, and `scanStep_effect` says that it does one of these
things, whichever branch of the chain it takes.  `RoundInk` says the same of the colours.

Most of it does not depend on what is in the buffer behind the line: only the search for a second
quotation mark goes on there, if there is none on the line.
-/

namespace Xv6Editor

/-! ### What is printed -/

/-- The characters of one piece of output, without the colours.  The fixed texts of `help` and
`demo` are not part of a display. -/
def Piece.chars : Piece → List UInt8
  | .lit s => bytesOf s
  | .chr c => [c]
  | .str s => s
  | .num n => number2string n
  | .sgr _ | .helpText | .demoText => []

/-- The characters of an output, without colours and NULs. -/
def shown (out : List Piece) : List UInt8 := (out.flatMap Piece.chars).filter (· ≠ 0)

/-- The colour after a piece of output, if it was `ink` before. -/
def Piece.ink (ink : List ℕ) : Piece → List ℕ
  | .sgr codes => codes
  | _ => ink

/-- The colour after an output. -/
def lastInk (ink : List ℕ) (out : List Piece) : List ℕ := out.foldl Piece.ink ink

/-- The characters of an output with their colours, if the colour was `ink` before. -/
def coloured (ink : List ℕ) : List Piece → List (UInt8 × List ℕ)
  | [] => []
  | p :: out => p.chars.map (·, ink) ++ coloured (p.ink ink) out

/-- The characters of an output with their colours, without NULs. -/
def inks (out : List Piece) : List (UInt8 × List ℕ) := (coloured [0] out).filter (·.1 ≠ 0)

/-- The colour of comments. -/
def commentInk : List ℕ := [1, 32]

variable {zt : Prop} {b : Block 256} {l w r : Line} {mark fuel : ℕ} {c q : UInt8}
  {codes ink : List ℕ} {out : List Piece} {x : List Piece × Scan}

@[simp] theorem shown_append (out out' : List Piece) :
    shown (out ++ out') = shown out ++ shown out' := by
  simp [shown]

theorem shown_paint (h : 0 ∉ w) : shown (w.flatMap (paint codes)) = w := by
  have hw : ∀ w : Line, (w.flatMap (paint codes)).flatMap Piece.chars = w := by
    intro w
    induction w with
    | nil => rfl
    | cons c w ih => simp [paint, Piece.chars, ih]
  rw [shown, hw, List.filter_eq_self]
  intro c hc
  simpa using ne_of_mem_of_not_mem hc h

theorem shown_chr (h : c ≠ 0) : shown (paint codes c) = [c] := by
  simp [shown, paint, Piece.chars, h]

theorem map_fst_coloured (ink : List ℕ) (out : List Piece) :
    (coloured ink out).map Prod.fst = out.flatMap Piece.chars := by
  induction out generalizing ink with
  | nil => rfl
  | cons p out ih =>
    rw [coloured, List.map_append, ih, List.map_map, List.flatMap_cons]
    exact congrArg (· ++ _) (List.map_id _)

theorem map_fst_inks (out : List Piece) : (inks out).map Prod.fst = shown out := by
  rw [shown, ← map_fst_coloured [0] out, List.filter_map]
  rfl

theorem coloured_append (ink : List ℕ) (out out' : List Piece) :
    coloured ink (out ++ out') = coloured ink out ++ coloured (lastInk ink out) out' := by
  induction out generalizing ink with
  | nil => rfl
  | cons p out ih =>
    rw [List.cons_append, coloured, coloured, ih, List.append_assoc]
    rfl

theorem inks_append (h : lastInk [0] out = [0]) (out' : List Piece) :
    inks (out ++ out') = inks out ++ inks out' := by
  rw [inks, coloured_append, h, List.filter_append]
  rfl

/-- Without the escape sequence of a colour nothing is printed in it. -/
theorem ne_of_mem_coloured {y : UInt8 × List ℕ} (hi : ink ≠ codes) (hc : .sgr codes ∉ out)
    (hy : y ∈ coloured ink out) : y.2 ≠ codes := by
  induction out generalizing ink with
  | nil => cases hy
  | cons p out ih =>
    rw [List.mem_cons, not_or] at hc
    have hp : p.ink ink ≠ codes := by
      cases p with
      | sgr codes' => exact fun h => hc.1 (congrArg Piece.sgr h.symm)
      | _ => exact hi
    rw [coloured, List.mem_append, List.mem_map] at hy
    obtain ⟨a, -, rfl⟩ | hy := hy
    · exact hi
    · exact ih hp hc.2 hy

theorem lastInk_paint (w : Line) : lastInk [0] (w.flatMap (paint codes)) = [0] := by
  induction w with
  | nil => rfl
  | cons c w ih => exact ih

theorem sgr_notMem_paint (h : codes ≠ ink) (h0 : [0] ≠ ink) (w : Line) :
    .sgr ink ∉ w.flatMap (paint codes) := by
  rw [List.mem_flatMap]
  rintro ⟨c, -, hc⟩
  simp [paint, h.symm, h0.symm] at hc

theorem inks_paint (w : Line) :
    inks (w.flatMap (paint codes)) = (shown (w.flatMap (paint codes))).map (·, codes) := by
  have hw : coloured [0] (w.flatMap (paint codes)) = w.map (·, codes) := by
    induction w with
    | nil => rfl
    | cons c w ih => exact congrArg _ ih
  rw [← map_fst_inks, inks, hw, List.filter_map, List.map_map, List.map_map]
  rfl

/-! ### The columns of a line -/

theorem IsLine.exists_tail (hb : IsLine zt b l) : ∃ t, b.bytes = l ++ 0 :: t :=
  hb.2.1 ▸ exists_eq_cstr_append hb.1

theorem IsLine.drop_bytes (hb : IsLine zt b l) (hm : mark ≤ l.length) :
    ∃ t, b.bytes.drop mark = l.drop mark ++ 0 :: t := by
  obtain ⟨t, ht⟩ := hb.exists_tail
  exact ⟨t, by rw [ht, List.drop_append_of_le_length hm]⟩

theorem col_of_bytes (h : b.bytes[mark]? = some c) : col b mark = .ok c := by
  simp only [col, h]

theorem col_of_drop (hb : IsLine zt b l) (hd : l.drop mark = c :: r) : col b mark = .ok c := by
  have hc : l[mark]? = some c := by
    rw [← List.head?_drop, hd]
    rfl
  obtain ⟨hm, -⟩ := List.getElem?_eq_some_iff.1 hc
  obtain ⟨t, ht⟩ := hb.exists_tail
  exact col_of_bytes (by rw [ht, List.getElem?_append_left hm, hc])

theorem col_length (hb : IsLine zt b l) : col b l.length = .ok 0 := by
  obtain ⟨t, ht⟩ := hb.exists_tail
  exact col_of_bytes (by rw [ht, List.getElem?_append_right le_rfl, Nat.sub_self]; rfl)

/-- If it is zero behind the line, the columns there are. -/
theorem col_of_le (hb : IsLine True b l) (hm : l.length ≤ mark) (hm' : mark < 256) :
    col b mark = .ok 0 := by
  have hlen := hb.length_lt
  have hpad : b.bytes = pad 256 l := hb.2.2 trivial
  exact col_of_bytes (by
    rw [hpad, pad, List.getElem?_append_right hm, List.getElem?_replicate_of_lt (by omega)])

theorem drop_succ (hd : l.drop mark = c :: r) : l.drop (mark + 1) = r := by
  rw [← List.drop_drop, hd]
  rfl

theorem lt_of_drop (hd : l.drop mark = c :: r) : mark < l.length := by
  have := congrArg List.length hd
  rw [List.length_drop, List.length_cons] at this
  omega

theorem ne_zero_of_drop (hb : IsLine zt b l) (hd : l.drop mark = c :: r) : c ≠ 0 := by
  rintro rfl
  exact hb.zero_notMem (List.mem_of_mem_drop (hd ▸ List.mem_cons_self))

theorem matchAt_eq (hb : IsLine zt b l) (hw : 0 ∉ w) (hm : mark ≤ l.length) :
    matchAt b mark w = .ok (decide (w <+: l.drop mark)) := by
  induction w generalizing mark with
  | nil => simp [matchAt]
  | cons a w ih =>
    rw [List.mem_cons, not_or] at hw
    cases hd : l.drop mark with
    | nil =>
      -- the word does not match the NUL behind the line
      obtain rfl : mark = l.length := Nat.le_antisymm hm (List.drop_eq_nil_iff.1 hd)
      simp [matchAt, col_length hb, bind, Except.bind, hw.1]
    | cons c r =>
      have ih' := ih hw.2 (lt_of_drop hd)
      rw [drop_succ hd] at ih'
      simp only [matchAt, col_of_drop hb hd, bind, Except.bind, ih', List.cons_prefix_cons]
      by_cases hca : c = a
      · simp [hca]
      · simp [hca, Ne.symm hca]

/-- The first column that is not a space is on the line, or is that of the terminator. -/
theorem findIdx?_space (hb : IsLine zt b l) :
    ∃ pos ≤ l.length, b.bytes.findIdx? (· ≠ ' '.toUInt8) = some pos ∧
      ∀ c ∈ l.take pos, c = ' '.toUInt8 := by
  obtain ⟨t, ht⟩ := hb.exists_tail
  have hmem : ∃ x ∈ b.bytes, decide (x ≠ ' '.toUInt8) = true :=
    ⟨0, by rw [ht]; simp, by decide⟩
  obtain ⟨pos, hpos⟩ := Option.isSome_iff_exists.1 (List.findIdx?_isSome.trans
    (List.any_eq_true.2 hmem))
  obtain ⟨_, -, hbefore⟩ := List.findIdx?_eq_some_iff_getElem.1 hpos
  have hle : pos ≤ l.length := by
    by_contra hlt
    refine hbefore l.length (not_le.1 hlt) ?_
    simp only [ht, List.getElem_append_right le_rfl, Nat.sub_self, List.getElem_cons_zero]
    decide
  refine ⟨pos, hle, hpos, fun c hc => ?_⟩
  obtain ⟨i, hi, rfl⟩ := List.getElem_of_mem hc
  rw [List.length_take, Nat.min_eq_left hle] at hi
  have := hbefore i hi
  simp only [ht, List.getElem_append_left (hi.trans_le hle)] at this
  simpa using this

theorem commentLine_eq (hb : IsLine zt b l) :
    ∃ pos ≤ l.length, (∀ c ∈ l.take pos, c = ' '.toUInt8) ∧
      commentLine b = .ok (decide (bytesOf "//" <+: l.drop pos)) := by
  obtain ⟨pos, hle, hpos, hsp⟩ := findIdx?_space hb
  refine ⟨pos, hle, hsp, ?_⟩
  rw [commentLine, hpos, Option.getD_some]
  exact matchAt_eq hb (by decide) hle

/-! ### One round -/

/-- A quotation mark. -/
def IsQuote (c : UInt8) : Prop := c = '"'.toUInt8 ∨ c = '\''.toUInt8

/-- Neither a quotation mark nor a slash. -/
def IsPlain (c : UInt8) : Prop := ¬IsQuote c ∧ c ≠ '/'.toUInt8

instance (c : UInt8) : Decidable (IsQuote c) := inferInstanceAs (Decidable (_ ∨ _))

instance (c : UInt8) : Decidable (IsPlain c) := inferInstanceAs (Decidable (_ ∧ _))

/-- What one round of the loop can do at column `mark` of the line `l`, outside of a comment. -/
inductive ScanEffect (l : Line) (mark : ℕ) : List Piece × Scan → Prop
  /-- It prints some characters. -/
  | plain {out : List Piece} {w r : Line} (hd : l.drop mark = w ++ r) (hw : w ≠ [])
    (hc : ∀ c ∈ w, IsPlain c) (ho : shown out = w) :
    ScanEffect l mark (out, ⟨mark + w.length, false⟩)
  /-- It prints a quotation. -/
  | quoted {out : List Piece} {q : UInt8} {w r : Line} (hd : l.drop mark = q :: (w ++ q :: r))
    (hq : IsQuote q) (hw : q ∉ w) (ho : shown out = q :: (w ++ [q])) :
    ScanEffect l mark (out, ⟨mark + (w.length + 2), false⟩)
  /-- It starts a comment. -/
  | comment {out : List Piece} {r : Line} (hd : l.drop mark = '/'.toUInt8 :: r)
    (ho : shown out = ('/'.toUInt8 :: r).take 2) : ScanEffect l mark (out, ⟨mark + 2, true⟩)
  /-- It goes back to the start of the line, because a quotation is not closed. -/
  | unclosed {q : UInt8} {r : Line} (hd : l.drop mark = q :: r) (hq : IsQuote q) (hr : q ∉ r) :
    ScanEffect l mark ([], ⟨0, false⟩)

/-- What the branches have in common: a word is not empty and has only plain characters. -/
def Rule.Ok : Rule → Prop
  | .word _ w _ => bytesOf w ≠ [] ∧ ∀ c ∈ bytesOf w, c ≠ 0 ∧ IsPlain c
  | .quote q => IsQuote q.toUInt8
  | .digit | .bracket | .slash => True

instance : DecidablePred Rule.Ok
  | .word .. => inferInstanceAs (Decidable (_ ∧ _))
  | .quote _ => inferInstanceAs (Decidable (IsQuote _))
  | .digit | .bracket | .slash => inferInstanceAs (Decidable True)

theorem rules_ok : ∀ r ∈ rules, r.Ok := by decide +kernel

theorem isPlain_digit (h : '0'.toUInt8 ≤ c) (h' : c ≤ '9'.toUInt8) : c ≠ 0 ∧ IsPlain c := by
  refine ⟨?_, fun hq => hq.elim ?_ ?_, ?_⟩
  all_goals
    rintro rfl
    exact absurd h (by decide)

theorem isPlain_bracket :
    ∀ c ∈ ['\x7b', '\x7d', '[', ']', '(', ')'].map Char.toUInt8, c ≠ 0 ∧ IsPlain c := by
  decide +kernel

theorem ScanEffect.char (hd : l.drop mark = c :: r) (hc : c ≠ 0 ∧ IsPlain c) :
    ScanEffect l mark (paint codes c, ⟨mark + 1, false⟩) :=
  .plain (w := [c]) hd (by simp) (by simpa using hc.2) (shown_chr hc.1)

theorem ScanEffect.word (hw : w ≠ []) (hc : ∀ c ∈ w, c ≠ 0 ∧ IsPlain c) (hd : w <+: l.drop mark) :
    ScanEffect l mark (w.flatMap (paint codes), ⟨mark + w.length, false⟩) := by
  obtain ⟨r, hr⟩ := hd
  exact .plain hr.symm hw (fun c h => (hc c h).2) (shown_paint fun h => (hc 0 h).1 rfl)

/-- The search for the second quotation mark: it does not go on behind the line, or finds nothing
there. -/
theorem findIdx?_quote (hb : IsLine zt b l) (hq : q ≠ 0) (hd : l.drop mark = q :: r)
    (hz : zt ∨ q ∈ r) : (b.bytes.drop (mark + 1)).findIdx? (· = q) = r.findIdx? (· = q) := by
  have hlt := lt_of_drop hd
  obtain hz | hmem := hz
  · have hpad : b.bytes.drop (mark + 1) = r ++ List.replicate (256 - l.length) 0 := by
      rw [hb.2.2 hz, pad, List.drop_append_of_le_length hlt, drop_succ hd]
    have hnone : (List.replicate (256 - l.length) (0 : UInt8)).findIdx? (· = q) = none := by
      rw [List.findIdx?_eq_none_iff]
      intro x hx
      simp [List.eq_of_mem_replicate hx, hq.symm]
    rw [hpad, List.findIdx?_append, hnone, Option.map_none, Option.or_none]
  · obtain ⟨t, ht⟩ := hb.drop_bytes hlt
    have hsome : (r.findIdx? (· = q)).isSome := by
      rw [List.findIdx?_isSome, List.any_eq_true]
      exact ⟨q, hmem, decide_eq_true rfl⟩
    obtain ⟨i, hi⟩ := Option.isSome_iff_exists.1 hsome
    rw [ht, drop_succ hd, List.findIdx?_append, hi, Option.some_or]

/-- Where the second quotation mark is found. -/
theorem exists_of_findIdx? {i : ℕ} (h : r.findIdx? (· = q) = some i) :
    ∃ w r', r = w ++ q :: r' ∧ w.length = i ∧ q ∉ w := by
  induction r generalizing i with
  | nil => simp at h
  | cons a r ih =>
    rw [List.findIdx?_cons] at h
    by_cases ha : a = q
    · simp only [ha, decide_true, if_true, Option.some.injEq] at h
      exact ⟨[], r, by rw [ha]; rfl, h, by simp⟩
    · simp only [ha, decide_false, Bool.false_eq_true, if_false, Option.map_eq_some_iff] at h
      obtain ⟨j, hj, rfl⟩ := h
      obtain ⟨w, r', rfl, rfl, hq⟩ := ih hj
      exact ⟨a :: w, r', rfl, rfl, by simp [hq, Ne.symm ha]⟩

theorem ScanEffect.slash (hb : IsLine zt b l) (hd : l.drop mark = '/'.toUInt8 :: r) :
    ∃ c', col b (mark + 1) = .ok c' ∧
      ScanEffect l mark (paint [1, 32] '/'.toUInt8 ++ paint [1, 32] c', ⟨mark + 2, true⟩) := by
  have hlt := lt_of_drop hd
  have hs : '/'.toUInt8 ≠ 0 := by decide
  have hd' := drop_succ hd
  cases r with
  | nil =>
    -- the slash is the last character: the NUL behind it is printed, too
    have hend : mark + 1 = l.length := Nat.le_antisymm hlt (List.drop_eq_nil_iff.1 hd')
    refine ⟨0, hend ▸ col_length hb, .comment hd ?_⟩
    rw [shown_append, shown_chr hs]
    rfl
  | cons c' r =>
    have hc' := ne_zero_of_drop hb hd'
    refine ⟨c', col_of_drop hb hd', .comment hd ?_⟩
    rw [shown_append, shown_chr hs, shown_chr hc']
    rfl

theorem ScanEffect.quotation (hb : IsLine zt b l) (hd : l.drop mark = q :: (w ++ q :: r))
    (hq : IsQuote q) (hw : q ∉ w) :
    ScanEffect l mark (((b.bytes.drop mark).take (w.length + 2)).flatMap (paint codes),
      ⟨mark + 1 + w.length + 1, false⟩) := by
  obtain ⟨t, ht⟩ := hb.drop_bytes (lt_of_drop hd).le
  have htake : (b.bytes.drop mark).take (w.length + 2) = q :: (w ++ [q]) := by
    rw [ht, hd, List.cons_append, List.take_succ_cons, List.append_assoc,
      List.take_length_add_append]
    rfl
  have h0 : 0 ∉ q :: (w ++ [q]) := fun h => hb.zero_notMem (List.mem_of_mem_drop (i := mark)
    (by rw [hd]; simp only [List.mem_cons, List.mem_append] at h ⊢; tauto))
  rw [htake, show mark + 1 + w.length + 1 = mark + (w.length + 2) by omega]
  exact .quoted hd hq hw (shown_paint h0)

/-- One branch: it does not apply, or it does one of the things above. -/
theorem Rule.apply_effect (hb : IsLine zt b l) (hd : l.drop mark = c :: r)
    (hz : zt ∨ (IsQuote c → c ∈ r)) {rule : Rule} (hr : rule.Ok) :
    (rule.apply b mark = .ok none ∧ (rule = .slash → c ≠ '/'.toUInt8) ∧
      ∀ q, rule = .quote q → c ≠ q.toUInt8) ∨
    ∃ x, rule.apply b mark = .ok (some x) ∧ ScanEffect l mark x := by
  have hlt := lt_of_drop hd
  have hlen := hb.length_lt
  have hcol := col_of_drop hb hd
  cases rule with
  | digit =>
    simp only [Rule.apply, hcol, bind, Except.bind]
    split_ifs with h
    · exact .inr ⟨_, rfl, .char hd (isPlain_digit h.1 h.2)⟩
    · exact .inl ⟨rfl, nofun, nofun⟩
  | word look w codes =>
    have h0 : 0 ∉ bytesOf w := fun h => (hr.2 0 h).1 rfl
    simp only [Rule.apply, matchAt_eq hb h0 hlt.le, bind, Except.bind, decide_eq_true_eq]
    split_ifs with hlook hw
    · exact .inr ⟨_, rfl, .word hr.1 hr.2 hw⟩
    · exact .inl ⟨rfl, nofun, nofun⟩
    · exact .inl ⟨rfl, nofun, nofun⟩
  | bracket =>
    simp only [Rule.apply, hcol, bind, Except.bind]
    split_ifs with h
    · exact .inr ⟨_, rfl, .char hd (isPlain_bracket c h)⟩
    · exact .inl ⟨rfl, nofun, nofun⟩
  | slash =>
    simp only [Rule.apply, hcol, bind, Except.bind, if_pos (show mark + 1 < 256 by omega)]
    split_ifs with h
    · obtain ⟨c', hc', hE⟩ := ScanEffect.slash hb (h ▸ hd)
      exact .inr ⟨_, by rw [hc', h], hE⟩
    · exact .inl ⟨rfl, fun _ => h, nofun⟩
  | quote p =>
    simp only [Rule.apply, hcol, bind, Except.bind]
    split_ifs with h
    · rw [← h, findIdx?_quote hb (ne_zero_of_drop hb hd) hd (hz.imp_right fun hq => hq (h ▸ hr))]
      cases hf : r.findIdx? (· = c) with
      | none =>
        refine .inr ⟨_, rfl, .unclosed hd (h ▸ hr) fun hm => ?_⟩
        simpa using List.findIdx?_eq_none_iff.1 hf c hm
      | some i =>
        obtain ⟨w, r', rfl, rfl, hw⟩ := exists_of_findIdx? hf
        exact .inr ⟨_, rfl, .quotation hb hd (h ▸ hr) hw⟩
    · exact .inl ⟨rfl, nofun, fun q hq => by cases hq; exact h⟩

/-- The chain of branches, if those for slashes and quotes are still to come. -/
theorem firstRule_effect (hb : IsLine zt b l) (hd : l.drop mark = c :: r)
    (hz : zt ∨ (IsQuote c → c ∈ r)) (rs : List Rule) (hok : ∀ r ∈ rs, r.Ok)
    (hs : c = '/'.toUInt8 → .slash ∈ rs) (hq : ∀ q ∈ ['"', '\''], c = q.toUInt8 → .quote q ∈ rs) :
    ∃ x, firstRule b mark rs = .ok x ∧ ScanEffect l mark x := by
  induction rs with
  | nil =>
    -- the character is plain
    have hc := ne_zero_of_drop hb hd
    refine ⟨([.chr c, .sgr [0]], ⟨mark + 1, false⟩), ?_, ?_⟩
    · simp only [firstRule, col_of_drop hb hd, bind, Except.bind]
    · refine .plain (w := [c]) hd (by simp) ?_ (by simp [shown, Piece.chars, hc])
      simp only [List.mem_singleton, forall_eq]
      refine ⟨fun h => ?_, fun h => nomatch hs h⟩
      exact h.elim (fun h => nomatch hq '"' (by simp) h) fun h => nomatch hq '\'' (by simp) h
  | cons rule rs ih =>
    obtain ⟨hnone, hns, hnq⟩ | ⟨x, hx, hE⟩ :=
      Rule.apply_effect hb hd hz (hok rule (by simp))
    · simp only [firstRule, hnone, bind, Except.bind]
      refine ih (fun r h => hok r (by simp [h])) (fun h => ?_) fun q hmem h => ?_
      · exact (List.mem_cons.1 (hs h)).resolve_left fun he => hns he.symm h
      · exact (List.mem_cons.1 (hq q hmem h)).resolve_left fun he => hnq q he.symm h
    · exact ⟨x, by simp only [firstRule, hx, bind, Except.bind], hE⟩

/-- One round of the loop, outside of a comment. -/
theorem scanStep_effect (hb : IsLine zt b l) (hd : l.drop mark = c :: r)
    (hz : zt ∨ (IsQuote c → c ∈ r)) :
    ∃ x, scanStep b ⟨mark, false⟩ = .ok x ∧ ScanEffect l mark x := by
  refine firstRule_effect hb hd hz rules rules_ok (fun _ => by simp [rules]) fun q hq _ => ?_
  obtain rfl | rfl : q = '"' ∨ q = '\'' := by simpa using hq
  all_goals simp [rules]

/-! ### The colours -/

/-- What a round does to the colours: it leaves none behind, and only a comment is printed in the
colour of comments. -/
inductive RoundInk : List Piece × Scan → Prop
  | other {out : List Piece} {m : ℕ} (hl : lastInk [0] out = [0]) (hc : .sgr commentInk ∉ out) :
    RoundInk (out, ⟨m, false⟩)
  | comment (w : Line) {m : ℕ} : RoundInk (w.flatMap (paint commentInk), ⟨m, true⟩)

/-- The branch for words does not use the colour of comments. -/
def Rule.InkOk : Rule → Prop
  | .word _ _ codes => codes ≠ commentInk
  | .digit | .bracket | .slash | .quote _ => True

instance : DecidablePred Rule.InkOk
  | .word .. => inferInstanceAs (Decidable (_ ≠ _))
  | .digit | .bracket | .slash | .quote _ => inferInstanceAs (Decidable True)

theorem rules_inkOk : ∀ r ∈ rules, r.InkOk := by decide +kernel

theorem RoundInk.paint (h : codes ≠ commentInk) (w : Line) {m : ℕ} :
    RoundInk (w.flatMap (paint codes), ⟨m, false⟩) :=
  .other (lastInk_paint w) (sgr_notMem_paint h (by decide) w)

theorem Rule.apply_ink {rule : Rule} (hr : rule.InkOk) :
    Ensures (fun o => ∀ x ∈ o, RoundInk x) (rule.apply b mark) := by
  have hnone : ∀ x ∈ (none : Option (List Piece × Scan)), RoundInk x := nofun
  cases rule with
  | digit =>
    refine .bind (.trivial _) fun c _ => .ite (fun _ => .ok ?_) fun _ => .ok hnone
    rintro _ ⟨⟩
    exact .paint (by decide) [c]
  | word look w codes =>
    refine .ite (fun _ => .bind (.trivial _) fun v _ => .ite (fun _ => .ok ?_) fun _ => .ok hnone)
      fun _ => .ok hnone
    rintro _ ⟨⟩
    exact .paint hr (bytesOf w)
  | bracket =>
    refine .bind (.trivial _) fun c _ => .ite (fun _ => .ok ?_) fun _ => .ok hnone
    rintro _ ⟨⟩
    exact .paint (by decide) [c]
  | slash =>
    refine .ite (fun _ => .bind (.trivial _) fun c _ => .ite (fun _ => .bind (.trivial _)
      fun c' _ => .ok ?_) fun _ => .ok hnone) fun _ => .ok hnone
    rintro _ ⟨⟩
    exact .comment [c, c']
  | quote q =>
    refine .bind (.trivial _) fun c _ => .ite (fun _ => ?_) fun _ => .ok hnone
    cases (b.bytes.drop (mark + 1)).findIdx? (· = q.toUInt8) with
    | none =>
      refine .ok ?_
      rintro _ ⟨⟩
      exact .other rfl nofun
    | some i =>
      refine .ok ?_
      rintro _ ⟨⟩
      exact .paint (by decide) _

theorem firstRule_ink (rs : List Rule) (hrs : ∀ r ∈ rs, r.InkOk) :
    Ensures RoundInk (firstRule b mark rs) := by
  induction rs with
  | nil => exact .bind (.trivial _) fun c _ => .ok (.other rfl (by simp [commentInk]))
  | cons rule rs ih =>
    refine .bind (Rule.apply_ink (hrs rule (by simp))) fun o ho => ?_
    cases o with
    | none => exact ih fun r h => hrs r (by simp [h])
    | some x => exact .ok (ho x rfl)

theorem scanStep_ink (h : scanStep b ⟨mark, false⟩ = .ok x) : RoundInk x :=
  firstRule_ink rules rules_inkOk x h

end Xv6Editor
