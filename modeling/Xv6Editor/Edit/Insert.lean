import Mathlib.Data.List.Perm.Subperm
import Xv6Editor.Runs.Invariant

/-!
# Insertion

What `com_ins` does to the lines, for every line number and content, with or without an undo record.

* `comIns_inserts` : in a text of at most 255 lines the content is inserted; an empty last line is
  filled by an insertion behind it.
* `Rep.comIns_full` : in a text of 256 lines there is no room, and the last line is dropped.
* `comIns_full_keeps_iff` : so the 256 lines are kept only if the number is refused, or if the
  content is a copy of the last line.
-/

namespace Xv6Editor

/-- The lines after an insertion of `c` as line `n`. -/
def inserted (ls : List Line) (n : ℤ) (c : Line) : List Line :=
  if 1 ≤ n ∧ n ≤ ls.length then ls.insertIdx (n - 1).toNat c
  else if n = ls.length + 1 then
    if ls.getLast? = some [] then ls.dropLast ++ [c, []] else ls ++ [c]
  else ls

variable {zt : Prop} {s s₁ : State} {d : Doc} {ps qs : List Ptr} {ls log : List Line} {k m : ℕ}
  {n : ℤ} {c l extra : Line}

/-! ### With room for a line -/

theorem inserted_of_not (h : ¬(1 ≤ n ∧ n ≤ ls.length + 1)) : inserted ls n c = ls := by
  rw [inserted, if_neg (by omega), if_neg (by omega)]

theorem insertIdx_concat (hm : m ≤ ls.length) (c l : Line) :
    (ls ++ [l]).insertIdx m c = ls.insertIdx m c ++ [l] := by
  induction ls generalizing m with
  | nil =>
    obtain rfl := Nat.le_zero.1 hm
    rfl
  | cons x ls ih =>
    cases m with
    | zero => rfl
    | succ m =>
      rw [List.cons_append, List.insertIdx_succ_cons, List.insertIdx_succ_cons,
        ih (Nat.le_of_succ_le_succ hm), List.cons_append]

theorem inserted_eq (hm : m ≤ ls.length) : inserted ls (m + 1 : ℕ) c = insLines ls m c := by
  rw [inserted, toNat_line_number]
  rcases Nat.lt_or_eq_of_le hm with hlt | rfl
  · rw [if_pos (by omega), insLines_of_lt hlt]
  · rw [if_neg (by omega), if_pos (by omega), insLines, insPos]
    split_ifs with hl hl' hl'
    · obtain ⟨init, rfl⟩ := List.getLast?_eq_some_iff.1 hl
      rw [List.dropLast_concat, List.length_append, List.length_singleton, Nat.add_sub_cancel,
        insertIdx_concat le_rfl, List.insertIdx_length_self, List.append_assoc]
      rfl
    · exact absurd ⟨rfl, hl⟩ hl'
    · exact absurd hl'.2 hl
    · rw [List.insertIdx_length_self]

theorem Doc.lines_insFlag (hm : m ≤ d.lines.length) {st : List UInt8} (flag : Bool)
    (hr : d.readContent extra = some (c, { d with stdin := st })) :
    ∃ d', d.insFlag (m + 1 : ℕ) extra flag = some d' ∧ d'.lines = insLines d.lines m c := by
  rw [Doc.insFlag, Doc.ins, if_neg (by omega), hr, toNat_line_number]
  exact ⟨_, rfl, rfl⟩

/-- `com_ins` on a text of 1 to 255 lines, with the content `c`. -/
theorem comIns_inserts (R : RepInv s k) (n : ℤ) (extra : Line) (flag : Bool) (h0 : 0 ∉ extra)
    (hlen : extra.length ≤ 255)
    (hr : 1 ≤ n ∧ n ≤ k + 1 → ∃ s₁, readContent s extra = .ok (c, s₁)) :
    ∃ s', comIns noDisplay s n extra flag = .ok s' ∧ HasText s' (inserted s.lines n c) := by
  obtain ⟨d, A, rfl⟩ := R.abs
  have hC : Computes noDisplay False s.lineNumber (d.insFlag n extra flag) _ :=
    A.comIns_flag (List.ne_nil_of_length_pos R.one_le) R.le h0 (by omega) n flag
  rw [A.lines_eq]
  by_cases hn : 1 ≤ n ∧ n ≤ d.lines.length + 1
  · obtain ⟨s₁, hc⟩ := hr hn
    obtain ⟨m, rfl⟩ : ∃ m : ℕ, n = (m + 1 : ℕ) := ⟨(n - 1).toNat, by omega⟩
    obtain ⟨-, hr'⟩ | ⟨c', st, out, hd, hr', -⟩ := A.readContent h0 (by omega)
    · cases hc.symm.trans hr'
    cases hc.symm.trans hr'
    obtain ⟨d', hd', hl⟩ := Doc.lines_insFlag (show m ≤ _ by omega) flag hd
    rw [hd'] at hC
    obtain ⟨s', hs, M, -⟩ := EndsIn.exists_ok hC
    rw [inserted_eq (by omega), ← hl]
    exact ⟨s', hs, M.hasText⟩
  · rw [Doc.insFlag, Doc.ins, if_pos (by omega)] at hC
    obtain ⟨s', hs, M, -⟩ := EndsIn.exists_ok hC
    rw [inserted_of_not hn]
    exact ⟨s', hs, M.hasText⟩

theorem comIns_inserts_session : ∃ s s', s.lines = [bytesOf "a", []] ∧
    comIns noDisplay s 3 (bytesOf "b") true = .ok s' ∧
    HasText s' [bytesOf "a", bytesOf "b", []] := by
  obtain ⟨s, A⟩ := exists_session False (bytesOf "a\n") [] False.elim
  have hl : s.lines = [bytesOf "a", []] := A.lines_eq.trans (by decide)
  obtain ⟨s', hs, ht⟩ := comIns_inserts (A.repInv (by decide) (by decide)) 3
    (bytesOf "b") true (by decide) (by decide) fun _ => ⟨s, rfl⟩
  rw [hl] at ht
  exact ⟨s, s', hl, hs, ht⟩

/-! ### Without room -/

/-- The loop on a full text: the last line is overwritten. -/
theorem Rep.insShift_full (H : Rep zt s ps ls qs log) (hk : ls.length = 256) (hm : m < 256) :
    ∃ h ls', insShift m 255 s = .ok { s with heap := h } ∧
      Rep zt { s with heap := h } ps ls' qs log ∧ m < ls'.length ∧
      ∀ c, ls'.set m c = (ls.insertIdx m c).dropLast := by
  obtain ⟨h, ls', hr, H', hls⟩ := H.insShift_up (m := m) (i := 255) (by omega)
  have hlen : ls'.length = 256 := by rw [← H'.length_eq, H.length_eq, hk]
  refine ⟨h, ls', hr, H', by omega, fun c => List.ext_getElem? fun j => ?_⟩
  rw [List.getElem?_set, hls, List.getElem?_dropLast, List.getElem?_insertIdx,
    List.length_insertIdx_of_le_length (by omega), hlen, hk, Nat.add_sub_cancel]
  rcases Nat.lt_or_ge j 256 with hj | hj
  · rw [if_pos hj]
    rcases Nat.lt_trichotomy j m with hjm | rfl | hjm
    · rw [if_neg (by omega), if_neg (by omega), if_pos hjm]
    · rw [if_pos rfl, if_pos hm, if_neg (by omega), if_pos rfl, if_pos (by omega)]
    · rw [if_neg (show ¬m = j by omega), if_pos (by omega), if_neg (by omega), if_neg (by omega)]
  · rw [if_neg (by omega), if_neg (by omega), if_neg (by omega), List.getElem?_eq_none (by omega)]

theorem Rep.insText_full (H : Rep zt s ps ls qs log) (hk : ls.length = 256) (hm : m < 256)
    (hl : ls[m]? = some l) {st : List UInt8} {out : List Piece}
    (hr : readContent s extra = .ok (c, { s with stdin := st, console := out }))
    (hc : 0 ∉ c) (hlen : c.length < 256) (flag : Bool) :
    ∃ h, insText s (m + 1 : ℕ) extra flag = .ok (if flag then some l else none,
        { s with stdin := st, console := out, heap := h }) ∧
      Rep zt { s with stdin := st, console := out, heap := h } ps (ls.insertIdx m c).dropLast qs
        log := by
  have H₁ : Rep zt { s with stdin := st, console := out } ps ls qs log := H.congr rfl rfl rfl rfl
  obtain ⟨h, ls', hsh, H₂, hm', hls⟩ := H₁.insShift_full hk hm
  obtain ⟨h', hput, H₃⟩ := H₂.putLine hm' hc hlen
  obtain ⟨q, hq⟩ := H₂.exists_ptr hm'
  refine ⟨h', ?_, hls c ▸ H₃⟩
  simp only [insText, toNat_line_number, hr, H₁.copyLine hl, hsh, H₂.slot_eq hm, hq, hput, bind,
    Except.bind]

theorem Rep.comIns_full (disp : Display) (H : Rep zt s ps ls qs log) (hk : ls.length = 256)
    (hm : m < 256) {st : List UInt8} {out : List Piece}
    (hr : readContent s extra = .ok (c, { s with stdin := st, console := out }))
    (hc : 0 ∉ c) (hlen : c.length < 256) (flag : Bool) :
    ∃ cs h u qs' part4, Xv6Editor.comIns disp s (m + 1 : ℕ) extra flag =
        autoDisplay disp { s with
          stdin := st, console := out, changed := true, commandSet := cs, heap := h,
          upperBound := u } ∧
      Rep zt { s with
          stdin := st, console := out, changed := true, commandSet := cs, heap := h,
          upperBound := u } ps (ls.insertIdx m c).dropLast qs'
        (if flag then Undo.push 20 log (undoRecord "ins-" (m + 1 : ℕ) part4) else log) := by
  have hg : ¬(((m + 1 : ℕ) : ℤ) ≤ 0 ∨ ((m + 1 : ℕ) : ℤ) > getLineNumber s.text + 1 + 1) := by
    rw [H.getLineNumber_eq]
    omega
  obtain ⟨l, hl⟩ : ∃ l, ls[m]? = some l := ⟨_, List.getElem?_eq_getElem (by omega)⟩
  obtain ⟨h, ht, H₁⟩ := H.insText_full hk hm hl hr hc hlen flag
  obtain ⟨cs, h', u, qs', hf, H₂⟩ := H₁.finishEdit disp "ins-" (m + 1 : ℕ)
    fun l _ => isRecord_ins (by omega) l
  rw [elim_ite_some] at H₂
  refine ⟨cs, h', u, qs', l, ?_, H₂⟩
  rw [comIns_eq, if_neg hg, ht]
  exact hf

/-- Behind the last line of a full text there is no slot. -/
theorem insText_past_full (hr : readContent s extra = .ok (c, s₁)) (flag : Bool) :
    insText s 257 extra flag = fail (.textIndex 256) := by
  have hm : ((257 : ℤ) - 1).toNat = 256 := rfl
  have hshift : insShift 256 255 s₁ = .ok s₁ := rfl
  simp only [insText, hm, hr, copyLine, bind, Except.bind]
  cases flag with
  | false =>
    simp only [Bool.false_eq_true, if_false, hshift]
    rfl
  | true => rfl

theorem Rep.comIns_past_full (disp : Display) (H : Rep zt s ps ls qs log) (hk : ls.length = 256)
    (hr : readContent s extra = .ok (c, s₁)) (flag : Bool) :
    Xv6Editor.comIns disp s 257 extra flag = fail (.textIndex 256) := by
  have hg : ¬((257 : ℤ) ≤ 0 ∨ (257 : ℤ) > getLineNumber s.text + 1 + 1) := by
    rw [H.getLineNumber_eq]
    omega
  rw [comIns_eq, if_neg hg, insText_past_full hr flag]
  rfl

theorem Rep.comIns_full_refused (disp : Display) (H : Rep zt s ps ls qs log)
    (hk : ls.length = 256) (hn : n ≤ 0 ∨ 257 < n) (extra : Line) (flag : Bool) :
    Xv6Editor.comIns disp s n extra flag = .ok (s.print (alarm "invalid line number")) := by
  have hg := H.getLineNumber_eq
  rw [Xv6Editor.comIns, if_pos (by omega)]

theorem Mem.comIns_full (M : Mem False s d) (hk : d.lines.length = 256) (hm : m < 256)
    (extra : Line) (flag : Bool) (h0 : 0 ∉ extra) (hlen : extra.length ≤ 255)
    (hr : Xv6Editor.readContent s extra = .ok (c, s₁)) :
    ∃ s', Xv6Editor.comIns noDisplay s (m + 1 : ℕ) extra flag = .ok s' ∧
      s'.lines = (d.lines.insertIdx m c).dropLast := by
  obtain ⟨ps, qs, H⟩ := M.rep
  obtain ⟨-, hr'⟩ | ⟨c', st, out, -, hr', hc, hc'⟩ := M.readContent h0 (by omega)
  · cases hr.symm.trans hr'
  cases hr.symm.trans hr'
  obtain ⟨cs, h, u, qs', part4, hs, H'⟩ := H.comIns_full noDisplay hk hm hr hc hc' flag
  rw [hs, autoDisplay_noDisplay]
  exact ⟨_, rfl, H'.lines_eq⟩

/-- Only a copy of the lost line makes up for it. -/
theorem subperm_insertIdx_iff (hm : m ≤ ls.length) :
    (ls ++ [l]).Subperm (ls.insertIdx m c) ↔ l = c := by
  have hperm : (ls.insertIdx m c).Perm (c :: ls) := List.perm_insertIdx c ls hm
  have hperm' : (ls ++ [l]).Perm (l :: ls) := List.perm_append_singleton l ls
  constructor
  · intro h
    have hp : (l :: ls).Perm (c :: ls) := hperm'.symm.trans ((h.perm_of_length_le
      (by rw [hperm.length_eq, hperm'.length_eq, List.length_cons, List.length_cons])).trans hperm)
    by_contra hne
    have hcount := hp.count_eq l
    rw [List.count_cons_self, List.count_cons_of_ne (Ne.symm hne)] at hcount
    omega
  · rintro rfl
    exact (hperm'.trans hperm.symm).subperm

theorem exists_concat (hk : ls.length = 256) : ∃ init l, ls = init ++ [l] := by
  obtain rfl | h := List.eq_nil_or_concat' ls
  · cases hk
  · exact h

/-- `com_ins` keeps the lines of a full text if and only if it refuses the line number, or gets the
last line, which it drops, as the content. -/
theorem comIns_full_keeps_iff (M : Mem False s d) (hk : d.lines.length = 256) (n : ℤ)
    (extra : Line) (flag : Bool) (h0 : 0 ∉ extra) (hlen : extra.length ≤ 255)
    (hr : 1 ≤ n ∧ n ≤ 257 → ∃ s₁, readContent s extra = .ok (c, s₁)) :
    (∃ s', comIns noDisplay s n extra flag = .ok s' ∧ s.lines.Subperm s'.lines) ↔
      n ≤ 0 ∨ 257 < n ∨ n ≤ 256 ∧ s.lines.getLast? = some c := by
  obtain ⟨ps, qs, H⟩ := M.rep
  by_cases hn : n ≤ 0 ∨ 257 < n
  · have hs := H.comIns_full_refused noDisplay hk hn extra flag
    exact ⟨fun _ => hn.imp_right .inl, fun _ => ⟨_, hs, .refl _⟩⟩
  obtain ⟨s₁, hc⟩ := hr (by omega)
  rcases Int.lt_or_eq_of_le (show n ≤ 257 by omega) with hlt | rfl
  · obtain ⟨m, rfl⟩ : ∃ m : ℕ, n = (m + 1 : ℕ) := ⟨(n - 1).toNat, by omega⟩
    obtain ⟨s', hs, hl'⟩ := M.comIns_full hk (show m < 256 by omega) extra flag h0 hlen hc
    obtain ⟨init, l, hl⟩ := exists_concat hk
    have hinit : init.length = 255 := by
      rw [hl, List.length_append, List.length_singleton] at hk
      omega
    rw [hl, insertIdx_concat (by omega), List.dropLast_concat] at hl'
    rw [M.lines_eq, hl, List.getLast?_concat, Option.some.injEq,
      ← subperm_insertIdx_iff (show m ≤ init.length by omega), ← hl']
    constructor
    · rintro ⟨s'', hs'', hsub⟩
      cases hs.symm.trans hs''
      exact .inr (.inr ⟨by omega, hsub⟩)
    · rintro (h | h | ⟨-, hsub⟩)
      · exact absurd (.inl h) hn
      · exact absurd (.inr h) hn
      · exact ⟨s', hs, hsub⟩
  · rw [H.comIns_past_full noDisplay hk hc flag]
    constructor
    · rintro ⟨s', hs, -⟩
      cases hs
    · omega

/-- A full text with `z` in its last line. -/
def fullText : List Line := List.replicate 255 [] ++ [bytesOf "z"]

theorem length_fullText : fullText.length = 256 := by
  rw [fullText, List.length_append, List.length_replicate, List.length_singleton]

theorem eq_of_mem_fullText (h : l ∈ fullText) : l = [] ∨ l = bytesOf "z" := by
  rw [fullText, List.mem_append, List.mem_replicate, List.mem_singleton] at h
  exact h.imp_left And.right

theorem exists_fullText : ∃ s d, Mem False s d ∧ d.lines = fullText := by
  have hn : NoNewline fullText := by
    intro l h
    obtain rfl | rfl := eq_of_mem_fullText h <;> decide
  have hl : ∀ l ∈ fullText, 0 ∉ l ∧ l.length < 256 := by
    intro l h
    obtain rfl | rfl := eq_of_mem_fullText h <;> decide
  have h0 : fullText ≠ [] := List.append_ne_nil_of_right_ne_nil _ (List.cons_ne_nil _ _)
  obtain ⟨s, d, A, hd, -⟩ := exists_abs [] h0 hn hl length_fullText.le
  exact ⟨s, d, A.toMem, hd⟩

theorem comIns_full_keeps_copy : ∃ s s', s.lines = fullText ∧
    comIns noDisplay s 1 (bytesOf "z") true = .ok s' ∧ s.lines.Subperm s'.lines := by
  obtain ⟨s, d, M, hl⟩ := exists_fullText
  have hlines : s.lines = _ := M.lines_eq.trans hl
  obtain ⟨s', hs, hsub⟩ := (comIns_full_keeps_iff M (hl ▸ length_fullText) 1
    (bytesOf "z") true (by decide) (by decide) fun _ => ⟨s, rfl⟩).2
    (.inr (.inr ⟨by decide, by rw [hlines, fullText, List.getLast?_concat]⟩))
  exact ⟨s, s', hlines, hs, hsub⟩

/-- An insertion of `x` at the first line loses the `z`. -/
theorem comIns_full_loses : ∃ s, s.lines = fullText ∧
    ¬∃ s', comIns noDisplay s 1 (bytesOf "x") true = .ok s' ∧ s.lines.Subperm s'.lines := by
  obtain ⟨s, d, M, hl⟩ := exists_fullText
  refine ⟨s, M.lines_eq.trans hl, ?_⟩
  rintro ⟨s', hs, hsub⟩
  obtain ⟨s'', hs'', hl'⟩ := M.comIns_full (m := 0) (hl ▸ length_fullText) (by decide)
    (bytesOf "x") true (by decide) (by decide) rfl
  cases hs.symm.trans hs''
  rw [M.lines_eq, hl', hl, fullText, insertIdx_concat (Nat.zero_le _), List.dropLast_concat,
    subperm_insertIdx_iff (Nat.zero_le _)] at hsub
  exact absurd hsub (by decide)

end Xv6Editor
