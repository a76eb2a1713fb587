import Xv6Editor.Display.Text

/-!
# Deletion

What `com_del` does to the lines and to their buffers, for every line number.  The lines behind the
deleted one move down, each into a buffer that was cleared before, so buffers that are zero behind
their lines stay so; the buffer of the last line is given back.
-/

namespace Xv6Editor

/-- The lines after the deletion of line `n`. -/
def deleted (ls : List Line) (n : ℤ) : List Line :=
  if 1 ≤ n ∧ n ≤ ls.length then
    if ls.length = 1 then [[]] else ls.eraseIdx (n - 1).toNat
  else ls

variable {zt : Prop} {s : State} {ps qs : List Ptr} {ls log : List Line} {k m : ℕ} {n : ℤ}

theorem deleted_eq (hm : m < ls.length) : deleted ls (m + 1 : ℕ) = delLines ls m := by
  rw [deleted, if_pos (by omega), toNat_line_number, delLines]
  congr 1
  exact propext ⟨fun h => by omega, fun h => by omega⟩

theorem Rep.text_of_ptr (H : Rep zt s ps ls qs log) {i : ℕ} {p : Ptr} (hp : ps[i]? = some p) :
    s.text[i]? = some (some p) := by
  have hle := H.length_ps
  obtain ⟨hi, -⟩ := List.getElem?_eq_some_iff.1 hp
  rw [← Vector.getElem?_toList, H.text_eq, getElem?_slots (by omega) H.length_ps, hp]

/-- What is known of the buffers of a state is part of what it represents. -/
theorem Rep.ofZeroText (H : Rep False s ps ls qs log) (k : ℕ) :
    Rep (ZeroText s k) s ps ls qs log where
  text_eq := H.text_eq
  length_ps := H.length_ps
  lines_holds := by
    refine ⟨H.length_eq, fun i p l hp hl => ?_⟩
    obtain ⟨b, hb, hbl⟩ := H.lines_holds.2 i p l hp hl
    refine ⟨b, hb, hbl.1, hbl.2.1, fun Z => ?_⟩
    obtain ⟨b', hb', -, hz⟩ := Z.line i p (H.text_of_ptr hp)
    cases hb.symm.trans hb'
    rw [hz, hbl.2.1]
  commands_eq := H.commands_eq
  length_qs := H.length_qs
  upperBound_eq := H.upperBound_eq
  log_holds := H.log_holds
  nodup := H.nodup

/-- `com_del` on a text of 1 to 255 lines. -/
theorem comDel_deletes (R : RepInv s k) (n : ℤ) (flag : Bool) :
    ∃ s', comDel noDisplay s n flag = .ok s' ∧ HasText s' (deleted s.lines n) ∧
      (1 ≤ n ∧ n ≤ k ∧ 2 ≤ k → ∃ p, s.text[k - 1]? = some (some p) ∧
        s'.text[k - 1]? = some none ∧ s'.heap.get p = none) ∧
      (ZeroText s k → ZeroText s' (deleted s.lines n).length) := by
  obtain ⟨d, A, rfl⟩ := R.abs
  obtain ⟨ps, qs, H⟩ := A.rep
  have hg := H.getLineNumber_eq
  have hle := R.le
  have Hz := H.ofZeroText d.lines.length
  rw [A.lines_eq]
  by_cases hn : 1 ≤ n ∧ n ≤ d.lines.length
  · obtain ⟨m, rfl⟩ : ∃ m : ℕ, n = (m + 1 : ℕ) := ⟨(n - 1).toNat, by omega⟩
    have hm : m < d.lines.length := by omega
    obtain ⟨t, h, ps', hs, H', hfree⟩ := Hz.comDel noDisplay hm hle flag
    rw [autoDisplay_noDisplay] at hs
    rw [deleted_eq hm]
    refine ⟨_, hs, H'.hasText, ?_, H'.zeroText⟩
    rintro ⟨-, -, h2⟩
    obtain ⟨p, hp, hget⟩ := hfree h2
    rw [List.getLast?_eq_getElem?, H.length_eq] at hp
    refine ⟨p, H.text_of_ptr hp, ?_, hget⟩
    -- one line less, so the slot of the last line is not a line any more
    have hnone := mt (H'.text_ne_null (d.lines.length - 1) (by omega)).1 ?_
    · rw [Vector.getElem?_eq_getElem (by omega), not_ne_iff.1 hnone]
    · rw [delLines, if_neg (by omega), List.length_eraseIdx_of_lt hm]
      omega
  · have hs : comDel noDisplay s n flag = .ok (s.print (alarm "invalid line number")) := by
      rw [comDel, if_pos (by omega)]
    rw [deleted, if_neg hn]
    refine ⟨_, hs, (A.print _).hasText, ?_, fun Z => ⟨Z.text_ne_null, Z.line⟩⟩
    rintro ⟨h1, h2, -⟩
    exact absurd ⟨h1, h2⟩ hn

theorem comDel_deletes_session : ∃ s s', s.lines = [bytesOf "a", bytesOf "bc", []] ∧
    comDel noDisplay s 2 true = .ok s' ∧ HasText s' [bytesOf "a", []] ∧ ZeroText s' 2 ∧
    ∃ p, s.text[2]? = some (some p) ∧ s'.text[2]? = some none ∧ s'.heap.get p = none := by
  obtain ⟨s, A⟩ := exists_session True (bytesOf "a\nbc\n") [] fun _ => by decide
  have hl : s.lines = [bytesOf "a", bytesOf "bc", []] := A.lines_eq.trans (by decide)
  obtain ⟨s', hs, ht, hfree, hz⟩ := comDel_deletes (A.repInv (by decide) (by decide)) 2 true
  rw [hl] at ht hz
  exact ⟨s, s', hl, hs, ht, hz A.zeroText, hfree (by decide)⟩

end Xv6Editor
