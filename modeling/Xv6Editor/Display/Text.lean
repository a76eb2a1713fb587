import Xv6Editor.Runs.Invariant

/-!
# The two displays of the text

`plainText ls` are the characters of a display of the lines `ls`.  `show_text` prints them, and so
does `show_text_syntax_highlighting` if it comes to an end on every line; the two displays differ in
their colours only.
-/

namespace Xv6Editor

/-- What is printed for a line, after its number. -/
def plainLine (l : Line) : List UInt8 :=
  if l = bytesOf "\n" then bytesOf "\n" else l ++ bytesOf "\n"

/-- The characters of the lines of a display. -/
def plainText (ls : List Line) : List UInt8 :=
  (ls.mapIdx fun j l => shown (lineHead j) ++ plainLine l).flatten

/-- The text has `k` lines, and their buffers are zero behind them. -/
structure ZeroText (s : State) (k : ℕ) : Prop where
  /-- The slots before `k` hold a pointer, the others are NULL. -/
  text_ne_null : ∀ i (h : i < 256), s.text[i] ≠ none ↔ i < k
  line : ∀ (i : ℕ) (p : Ptr), s.text[i]? = some (some p) →
    ∃ b, s.heap.get p = some b ∧ 0 ∈ b.bytes ∧ b.bytes = pad 256 b.str

/-- The scanning loop of the highlighter is not left out on the line, -/
def Scanned (b : Block 256) : Prop := b.str ≠ bytesOf "\n" ∧ commentLine b = .ok false

/-- and terminates. -/
def ScanEnds (b : Block 256) : Prop := ∃ fuel out, scanLoop b fuel ⟨0, false⟩ = .ok out

variable {s : State} {d : Doc} {b : Block 256} {l : Line} {ls : List Line} {ps : List Ptr} {k : ℕ}

/-! ### One line -/

theorem shown_str (h : 0 ∉ l) : shown [.str l, .lit "\n"] = l ++ bytesOf "\n" := by
  have hl : l.filter (· ≠ 0) = l := by
    rw [List.filter_eq_self]
    intro c hc
    simpa using ne_of_mem_of_not_mem hc h
  have h0 : (bytesOf "\n").filter (· ≠ 0) = bytesOf "\n" := by decide
  simp only [shown, Piece.chars, List.flatMap_cons, List.flatMap_nil, List.append_nil,
    List.filter_append, hl, h0]

theorem shown_plainLine (h : 0 ∉ l) :
    shown (if l = bytesOf "\n" then [.lit "\n"] else [.str l, .lit "\n"]) = plainLine l := by
  rw [plainLine]
  split_ifs
  · decide
  · exact shown_str h

/-- The highlighter prints the characters of the line, if it comes to an end. -/
theorem highlightLine_eq (hb : IsLine True b l) (hends : Scanned b → ScanEnds b) :
    ∃ out, highlightLine b = .ok out ∧ shown out = plainLine l := by
  have h0 := hb.zero_notMem
  have hstr : b.str = l := hb.2.1
  obtain ⟨v, hv⟩ : ∃ v, commentLine b = .ok v := by
    obtain ⟨pos, -, -, hv⟩ := commentLine_eq hb
    exact ⟨_, hv⟩
  rw [highlightLine]
  by_cases hn : b.str = bytesOf "\n"
  · refine ⟨_, if_pos hn, ?_⟩
    rw [plainLine, if_pos (hstr ▸ hn)]
    decide
  rw [if_neg hn, plainLine, if_neg (hstr ▸ hn)]
  cases v with
  | true =>
    refine ⟨[.sgr [1, 32], .str b.str, .lit "\n", .sgr [0]], ?_, ?_⟩
    · simp only [hv, bind, Except.bind, if_true]
    · rw [hstr, ← shown_str h0]
      simp [shown, Piece.chars]
  | false =>
    -- if the loop ends at all, it ends within the fuel of the model
    obtain ⟨fuel, out, hout⟩ := hends ⟨hn, hv⟩
    have hc : QuotesClosed l := by
      by_contra hc
      cases hout.symm.trans (scanLoop_hung 0 hb hc hc)
    obtain ⟨out', t, hout', H, ht⟩ := scanLoop_closed 0 hb (Nat.zero_le _) hc
      (show 256 - 0 < 257 by decide)
    refine ⟨out' ++ [.lit "\n"], ?_, ?_⟩
    · simp only [hv, hout', bind, Except.bind, Bool.false_eq_true, if_false]
    · rw [shown_append, H.shown_eq, ht trivial, List.append_nil]
      rfl

/-! ### The text -/

theorem plainText_take_succ {i : ℕ} (h : ls[i]? = some l) :
    plainText (ls.take (i + 1)) = plainText (ls.take i) ++ (shown (lineHead i) ++ plainLine l) := by
  obtain ⟨hi, -⟩ := List.getElem?_eq_some_iff.1 h
  rw [List.take_add_one, h, Option.toList_some, plainText, List.mapIdx_concat, List.flatten_concat,
    List.length_take, Nat.min_eq_left hi.le]
  rfl

/-- A display whose rounds print the number and the characters of the line prints the text. -/
theorem scanText_eq (body : ℕ → Ptr → List Piece → Except Halt (List Piece))
    (hp : s.heap.Holds (IsLine True) ps ls) (hk : ps.length ≤ 255)
    (hbody : ∀ i p b l out, ps[i]? = some p → s.heap.get p = some b → IsLine True b l →
      ∃ line, body i p out = .ok (out ++ lineHead i ++ line) ∧ shown line = plainLine l) :
    ∃ out, scanSlots body (slots ps) 0 [] = .ok out ∧ shown out = plainText ls := by
  -- after `i` rounds the first `i` lines have been printed
  have hscan := scanSlots_rule body (fun _ => False) (k := 256 - ps.length) (by omega) ps
    (I := fun i out => shown out = plainText (ls.take i)) (j := 0) (a := []) rfl
    fun i p out hi hout => by
      obtain ⟨l, b, hl, hb, hbl⟩ := hp.exists_block hi
      obtain ⟨line, hline, hshown⟩ := hbody i p b l out hi hb hbl
      rw [Nat.zero_add]
      refine .inl ⟨_, hline, ?_⟩
      rw [shown_append, shown_append, hout, hshown, plainText_take_succ hl, List.append_assoc]
  obtain ⟨out, hout, hshown⟩ | ⟨e, -, he⟩ := hscan
  · rw [hp.1, List.take_length] at hshown
    exact ⟨out, hout, hshown⟩
  · exact he.elim

theorem Rep.zeroText {zt : Prop} {qs : List Ptr} {log : List Line} (H : Rep zt s ps ls qs log)
    (hz : zt) : ZeroText s ls.length where
  text_ne_null := H.text_ne_null
  line := by
    intro i p hp
    obtain ⟨l, b, -, hb, hbl⟩ := H.lines_holds.exists_block (H.text_eq_some hp)
    exact ⟨b, hb, hbl.1, hbl.2.1.symm ▸ hbl.2.2 hz⟩

theorem Mem.zeroText (M : Mem True s d) : ZeroText s d.lines.length := by
  obtain ⟨ps, qs, H⟩ := M.rep
  exact H.zeroText trivial

/-- The scanning loop ends on a document whose quotations are closed. -/
theorem Mem.scanEnds (M : Mem True s d) (hc : ∀ l ∈ d.lines, QuotesClosed l) {i : ℕ} {p : Ptr}
    (hp : s.text[i]? = some (some p)) (hb : s.heap.get p = some b) : ScanEnds b := by
  obtain ⟨ps, qs, H⟩ := M.rep
  obtain ⟨l, b', hl, hb', hbl⟩ := H.lines_holds.exists_block (H.text_eq_some hp)
  cases hb.symm.trans hb'
  obtain ⟨out, -, hout, -⟩ := scanLoop_closed 0 hbl (Nat.zero_le _)
    (hc l (List.mem_of_getElem? hl)) (Nat.lt_succ_self _)
  exact ⟨_, out, hout⟩

theorem ZeroText.exists_holds (Z : ZeroText s k) (hk : k ≤ 255) :
    ∃ ps ls, ps.length = k ∧ s.text.toList = slots ps ∧ s.heap.Holds (IsLine True) ps ls ∧
      ∀ (i : ℕ) (p : Ptr), ps[i]? = some p → s.text[i]? = some (some p) := by
  obtain ⟨ps, hlen, htext, hp⟩ := exists_slots (by omega) Z.text_ne_null
  refine ⟨ps, _, hlen, htext, Heap.holds_strings fun p hm => ?_, hp⟩
  obtain ⟨i, hi⟩ := List.mem_iff_getElem?.1 hm
  obtain ⟨b, hb, h0, hz⟩ := Z.line i p (hp i p hi)
  exact ⟨b, hb, h0, rfl, fun _ => hz⟩

/-- The highlighted display shows the characters of the plain one, if the scanning loop ends on the
lines on which it is run. -/
theorem showTextSyntaxHighlighting_agrees (hk : k ≤ 255) (Z : ZeroText s k)
    (hends : ∀ (i : ℕ) (p : Ptr) (b : Block 256), s.text[i]? = some (some p) →
      s.heap.get p = some b → Scanned b → ScanEnds b) :
    ∃ out out', showTextSyntaxHighlighting s = .ok out ∧ showText s = .ok out' ∧
      shown out = shown out' := by
  obtain ⟨ps, ls, hlen, htext, hp, hslot⟩ := Z.exists_holds hk
  obtain ⟨out, hout, hshown⟩ := scanText_eq (highlightRound s) hp (by omega)
    fun i p b l out hi hb hbl => by
      obtain ⟨line, hline, hchars⟩ := highlightLine_eq hbl (hends i p b (hslot i p hi) hb)
      refine ⟨line, ?_, hchars⟩
      simp only [highlightRound, strAt_eq hb hbl, State.block, hb, hline, bind, Except.bind,
        Except.mapError]
  obtain ⟨out', hout', hshown'⟩ := scanText_eq (showRound s) hp (by omega)
    fun i p b l out _ hb hbl => by
      refine ⟨_, ?_, shown_plainLine hbl.zero_notMem⟩
      simp only [showRound, strAt_eq hb hbl, bind, Except.bind]
  refine ⟨contentsHead ++ out ++ [.lit "\n"], contentsHead ++ out' ++ [.lit "\n"], ?_, ?_, ?_⟩
  · simp only [showTextSyntaxHighlighting, htext, hout, bind, Except.bind]
  · simp only [showText, htext, hout', bind, Except.bind]
  · rw [shown_append, shown_append, shown_append, shown_append, hshown, hshown']

theorem showTextSyntaxHighlighting_agrees_session : ∃ s out out',
    s.lines = [bytesOf "int x = 'c'; // it's", bytesOf "", bytesOf "return 10;"] ∧
    showTextSyntaxHighlighting s = .ok out ∧ showText s = .ok out' ∧ shown out = shown out' := by
  obtain ⟨s, A⟩ := exists_session True (bytesOf "int x = 'c'; // it's\n\nreturn 10;") []
    fun _ => by decide
  obtain ⟨out, out', h⟩ := showTextSyntaxHighlighting_agrees (by decide)
    A.zeroText fun i p b hp hb _ => A.scanEnds (by decide) hp hb
  exact ⟨s, out, out', A.lines_eq.trans (by decide), h⟩

end Xv6Editor
