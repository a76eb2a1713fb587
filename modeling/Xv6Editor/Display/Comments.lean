import Xv6Editor.Display.Loop

/-!
# The colour of comments

A comment starts with two slashes that are not in a quotation (`commentStart`).  The highlighter
tests the first of the two slashes twice, and so takes a single slash for the start of a comment
(`slashStart`).

* `highlightLine_slash` : what is printed in the colour of comments begins at the first slash.
* `highlightLine_comments_iff` : so the colour is right if and only if a comment begins there, or
  there is no slash.
-/

namespace Xv6Editor

/-- The first two slashes outside of quotations. -/
def commentStart (l : Line) : Option ℕ := firstOutside (fun r => bytesOf "//" <+: r) none l

/-- Whether the quotations of a text are closed up to the first comment.  The first argument is the
quotation mark that is waited for, if there is one. -/
def literalsClosedFrom : Option UInt8 → Line → Bool
  | none, [] => true
  | some _, [] => false
  | none, c :: l =>
    if bytesOf "//" <+: c :: l then true
    else literalsClosedFrom (if IsQuote c then some c else none) l
  | some q, c :: l => literalsClosedFrom (if c = q then none else some q) l

/-- Every quotation outside of a comment is closed. -/
def LiteralsClosed (l : Line) : Prop := literalsClosedFrom none l = true

instance (l : Line) : Decidable (LiteralsClosed l) := inferInstanceAs (Decidable (_ = true))

/-- The output shows the line `l`, and those of its characters that are not spaces are in the colour
of comments from column `start` on. -/
def CommentsFrom (start : Option ℕ) (l : Line) (out : List Piece) : Prop :=
  l <+: (inks out).map Prod.fst ∧
  ∀ i c ink, (inks out)[i]? = some (c, ink) → i < l.length → c ≠ ' '.toUInt8 →
    (ink = commentInk ↔ ∃ j, start = some j ∧ j ≤ i)

variable {zt : Prop} {b : Block 256} {l t : Line} {out out' : List Piece} {o : Option UInt8}
  {p p' : Line → Bool} {j : ℕ}

/-! ### Slashes and comments -/

theorem slash_of_comment {c : UInt8} {r : Line} (h : bytesOf "//" <+: c :: r) :
    c = '/'.toUInt8 :=
  (List.cons_prefix_cons.1 h).1.symm

theorem LiteralsClosed.quotesClosed (h : LiteralsClosed l) : QuotesClosed l := by
  suffices H : ∀ o, literalsClosedFrom o l = true → closedFrom o l = true from H none h
  clear h
  induction l with
  | nil => exact fun o h => by cases o <;> exact h
  | cons c l ih =>
    intro o h
    cases o with
    | some q => exact ih _ h
    | none =>
      rw [closedFrom]
      rw [literalsClosedFrom] at h
      by_cases hs : c = '/'.toUInt8
      · rw [if_pos hs]
      · rw [if_neg fun hp => hs (slash_of_comment hp)] at h
        rw [if_neg hs]
        split_ifs at h ⊢
        · exact ih _ h
        · exact ih _ h

theorem firstOutside_spec (h : firstOutside p o l = some j) :
    p (l.drop j) = true ∧ j < l.length := by
  induction l generalizing o j with
  | nil => cases o <;> cases h
  | cons c l ih =>
    have hmap : ∀ o, (firstOutside p o l).map (· + 1) = some j →
        p ((c :: l).drop j) = true ∧ j < (c :: l).length := by
      intro o ho
      obtain ⟨i, hi, rfl⟩ := Option.map_eq_some_iff.1 ho
      obtain ⟨hp, hlt⟩ := ih hi
      exact ⟨hp, Nat.succ_lt_succ hlt⟩
    cases o with
    | some q => exact hmap _ h
    | none =>
      rw [firstOutside] at h
      split_ifs at h with hp
      · cases h
        exact ⟨hp, Nat.succ_pos _⟩
      · exact hmap _ h
      · exact hmap _ h

theorem firstOutside_le (hpp : ∀ r, p r = true → p' r = true)
    (h : firstOutside p o l = some j) : ∃ i ≤ j, firstOutside p' o l = some i := by
  induction l generalizing o j with
  | nil => cases o <;> cases h
  | cons c l ih =>
    have hmap : ∀ o, (firstOutside p o l).map (· + 1) = some j →
        ∃ i ≤ j, (firstOutside p' o l).map (· + 1) = some i := by
      intro o ho
      obtain ⟨j, hj, rfl⟩ := Option.map_eq_some_iff.1 ho
      obtain ⟨i, hij, hi⟩ := ih hj
      exact ⟨i + 1, Nat.succ_le_succ hij, by rw [hi]; rfl⟩
    cases o with
    | some q => exact hmap _ h
    | none =>
      rw [firstOutside] at h ⊢
      by_cases hp' : p' (c :: l) = true
      · exact ⟨0, Nat.zero_le _, if_pos hp'⟩
      · rw [if_neg fun hp => hp' (hpp _ hp)] at h
        rw [if_neg hp']
        exact hmap _ h

theorem slashStart_le (h : commentStart l = some j) : ∃ i ≤ j, slashStart l = some i := by
  refine firstOutside_le (fun r hr => ?_) h
  rw [decide_eq_true_eq] at hr ⊢
  obtain ⟨t, rfl⟩ := hr
  rfl

/-! ### What is printed -/

theorem exists_inks_append (out out' : List Piece) :
    ∃ rest, inks (out ++ out') = inks out ++ rest :=
  ⟨_, by rw [inks, coloured_append, List.filter_append]; rfl⟩

theorem Painted.commentsFrom (H : Painted l t out) (out' : List Piece) :
    CommentsFrom (slashStart l) l (out ++ out') := by
  obtain ⟨rest, hrest⟩ := exists_inks_append out out'
  have hfst : (inks out).map Prod.fst = l ++ t := by rw [map_fst_inks, H.shown_eq]
  have hlen := congrArg List.length hfst
  rw [List.length_map, List.length_append] at hlen
  refine ⟨?_, fun i c ink hi hil _ => ?_⟩
  · rw [hrest, List.map_append, hfst, List.append_assoc]
    exact List.prefix_append _ _
  · obtain ⟨pre, hinks, -, hne, hpre, -⟩ := H
    rw [hrest, List.getElem?_append_left (by omega), hinks] at hi
    by_cases hip : i < pre.length
    · -- before the first slash
      rw [List.getElem?_append_left hip] at hi
      refine iff_of_false (hne _ (List.mem_of_getElem? hi)) ?_
      rintro ⟨j, hj, hji⟩
      rw [hj, Option.getD_some] at hpre
      omega
    · rw [List.getElem?_append_right (not_lt.1 hip), List.getElem?_map] at hi
      obtain ⟨c', -, hc'⟩ := Option.map_eq_some_iff.1 hi
      cases hc'
      refine iff_of_true rfl ?_
      cases hs : slashStart l with
      | none =>
        rw [hs, Option.getD_none] at hpre
        omega
      | some j =>
        rw [hs, Option.getD_some] at hpre
        exact ⟨j, rfl, by omega⟩

/-- A line of spaces and a comment is printed as a whole. -/
theorem commentLine_commentsFrom {pos : ℕ} (h0 : 0 ∉ l) (hpos : pos ≤ l.length)
    (hsp : ∀ c ∈ l.take pos, c = ' '.toUInt8) (hc : bytesOf "//" <+: l.drop pos) :
    CommentsFrom (slashStart l) l [.sgr commentInk, .str l, .lit "\n", .sgr [0]] := by
  have hinks : inks [.sgr commentInk, .str l, .lit "\n", .sgr [0]] =
      (l ++ bytesOf "\n").map (·, commentInk) := by
    change ((l.map (·, commentInk) ++ ((bytesOf "\n").map (·, commentInk) ++ []))).filter _ = _
    rw [List.append_nil, ← List.map_append, List.filter_eq_self]
    intro x hx
    obtain ⟨c, hc, rfl⟩ := List.mem_map.1 hx
    rcases List.mem_append.1 hc with hc | hc
    · simpa using ne_of_mem_of_not_mem hc h0
    · simpa using ne_of_mem_of_not_mem hc (show 0 ∉ bytesOf "\n" by decide)
  have hstart : slashStart l = some pos := by
    obtain ⟨r, hr⟩ := hc
    have hplain : ∀ c ∈ l.take pos, IsPlain c := fun c hc => hsp c hc ▸ by decide
    have hlen : (l.take pos).length = pos := List.length_take_of_le hpos
    have hr' : l.drop pos = '/'.toUInt8 :: '/'.toUInt8 :: r := hr.symm
    rw [← List.take_append_drop pos l, slashStart_plain hplain, hlen, hr', slashStart_slash,
      Option.map_some, Nat.zero_add]
  refine ⟨?_, fun i c ink hi hil hcs => ?_⟩
  · rw [hinks, List.map_map]
    change l <+: List.map id _
    rw [List.map_id]
    exact List.prefix_append _ _
  · rw [hinks, List.getElem?_map] at hi
    obtain ⟨c', hc', he⟩ := Option.map_eq_some_iff.1 hi
    cases he
    refine iff_of_true rfl ⟨pos, hstart, ?_⟩
    -- a character before the comment is a space
    by_contra hip
    refine hcs (hsp c (List.mem_of_getElem? (i := i) ?_))
    rw [List.getElem?_take_of_lt (not_le.1 hip), ← hc', List.getElem?_append_left hil]

/-- The highlighter uses the colour of comments from the first slash outside of quotations on. -/
theorem highlightLine_slash (hb : IsLine zt b l) (hc : QuotesClosed l) :
    ∃ out, highlightLine b = .ok out ∧ CommentsFrom (slashStart l) l out := by
  have hstr : b.str = l := hb.2.1
  obtain ⟨pos, hpos, hsp, hcl⟩ := commentLine_eq hb
  rw [highlightLine, hstr]
  by_cases hn : l = bytesOf "\n"
  · subst hn
    refine ⟨_, if_pos rfl, by decide, fun i c ink hi _ _ => iff_of_false ?_ ?_⟩
    · have hi' : ([('\n'.toUInt8, [0])] : List (UInt8 × List ℕ))[i]? = some (c, ink) := hi
      have := List.mem_singleton.1 (List.mem_of_getElem? hi')
      rw [(Prod.mk.inj this).2]
      decide
    · have hs : slashStart (bytesOf "\n") = none := by decide
      rintro ⟨j, hj, -⟩
      cases hs.symm.trans hj
  rw [if_neg hn]
  simp only [hcl, bind, Except.bind, decide_eq_true_eq]
  split_ifs with hcom
  · exact ⟨_, rfl, commentLine_commentsFrom hb.zero_notMem hpos hsp hcom⟩
  · obtain ⟨out, t, hout, H, -⟩ := scanLoop_closed 0 hb (Nat.zero_le _) hc
      (show 256 - 0 < 257 by decide)
    exact ⟨_, by rw [hout], H.commentsFrom _⟩

/-- An output in which the colour begins at the first slash and at the first comment. -/
theorem CommentsFrom.start_eq (H : CommentsFrom (slashStart l) l out)
    (H' : CommentsFrom (commentStart l) l out) : slashStart l = commentStart l := by
  cases hs : slashStart l with
  | none =>
    cases hcs : commentStart l with
    | none => rfl
    | some j =>
      obtain ⟨i, -, hi⟩ := slashStart_le hcs
      cases hs.symm.trans hi
  | some i =>
    -- the slash at `i` is in the colour of comments, so a comment starts there or before
    obtain ⟨hslash, hlt⟩ := firstOutside_spec hs
    have hget : l[i]? = some '/'.toUInt8 := by
      rw [← List.head?_drop]
      simpa using hslash
    obtain ⟨rest, hrest⟩ := H.1
    have hfst : ((inks out).map Prod.fst)[i]? = some '/'.toUInt8 := by
      rw [← hrest, List.getElem?_append_left hlt, hget]
    rw [List.getElem?_map] at hfst
    obtain ⟨⟨c, ink⟩, hi, hc⟩ := Option.map_eq_some_iff.1 hfst
    have hc : c = '/'.toUInt8 := hc
    have hsp : c ≠ ' '.toUInt8 := hc ▸ by decide
    have hink := (H.2 i c ink hi hlt hsp).2 ⟨i, hs, le_rfl⟩
    obtain ⟨j, hj, hji⟩ := (H'.2 i c ink hi hlt hsp).1 hink
    obtain ⟨i', hi'j, hi'⟩ := slashStart_le hj
    cases hs.symm.trans hi'
    rw [hj, Nat.le_antisymm hi'j hji]

/-- On a line whose quotations are closed the colour of comments is exact if and only if the first
slash outside of quotations, if there is one, starts a comment. -/
theorem highlightLine_comments_iff (h0 : 0 ∈ b.bytes) (hc : LiteralsClosed b.str) :
    (∃ out, highlightLine b = .ok out ∧ CommentsFrom (commentStart b.str) b.str out) ↔
      slashStart b.str = commentStart b.str := by
  have hb : IsLine False b b.str := ⟨h0, rfl, False.elim⟩
  obtain ⟨out, hout, H⟩ := highlightLine_slash hb hc.quotesClosed
  constructor
  · rintro ⟨out', hout', H'⟩
    cases hout.symm.trans hout'
    exact H.start_eq H'
  · intro heq
    exact ⟨out, hout, heq ▸ H⟩

theorem highlightLine_comments_exact : ∃ out,
    highlightLine (lineBlock (bytesOf "x = \"//\"; // it's") (by decide)) = .ok out ∧
    CommentsFrom (some 10) (bytesOf "x = \"//\"; // it's") out :=
  (highlightLine_comments_iff (b := lineBlock (bytesOf "x = \"//\"; // it's") (by decide))
    (by decide) (by decide)).2 (by decide)

/-- A division is taken for a comment. -/
theorem highlightLine_division : LiteralsClosed (bytesOf "a / b") ∧
    ¬∃ out, highlightLine (lineBlock (bytesOf "a / b") (by decide)) = .ok out ∧
      CommentsFrom (commentStart (bytesOf "a / b")) (bytesOf "a / b") out := by
  refine ⟨by decide, ?_⟩
  rintro ⟨out, hout, H⟩
  have hl : IsLine True (lineBlock (bytesOf "a / b") (by decide)) (bytesOf "a / b") :=
    isLine_of_pad (by decide) (by decide) rfl
  obtain ⟨out', hout', H'⟩ := highlightLine_slash hl (by decide)
  cases hout.symm.trans hout'
  exact absurd (H'.start_eq H) (by decide)

end Xv6Editor
