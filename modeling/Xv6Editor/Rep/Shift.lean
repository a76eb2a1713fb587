import Xv6Editor.Rep.Basic

/-!
# The loops that move lines

`com_ins` moves the lines from the end of the array upwards, one block at a time, and `com_del`
moves them downwards.  Both loops are followed here on the represented list, position by position:
`insShift_up` and `delShift_down` say which line every position holds in the end.
-/

namespace Xv6Editor

variable {zt : Prop} {s : State} {ps qs : List Ptr} {ls log : List Line} {i m : ℕ} {c : Line}

namespace Rep

/-! ### Upwards -/

theorem insShiftBody_above (H : Rep zt s ps ls qs log) (hi : ls.length ≤ i) (hi' : i < 256) :
    insShiftBody s (i + 1) = .ok s := by
  have hp : ps[i]? = none := List.getElem?_eq_none (by rw [H.length_eq]; exact hi)
  simp only [insShiftBody, Nat.add_sub_cancel, H.slot_eq hi', hp, bind, Except.bind]

theorem insShift_skip (H : Rep zt s ps ls qs log) {j : ℕ} (hj : ls.length ≤ j) (hm : m ≤ j)
    (hi : j ≤ i) (hi' : i ≤ 255) : insShift m i s = insShift m j s := by
  induction i, hi using Nat.le_induction with
  | base => rfl
  | succ i hji ih =>
    rw [insShift, if_pos (by omega)]
    simp only [H.insShiftBody_above (by omega) (by omega : i < 256), bind, Except.bind]
    exact ih (by omega)

theorem insShiftBody_line (H : Rep zt s ps ls qs log) (hi : i + 1 < ls.length) {l : Line}
    (hl : ls[i]? = some l) :
    ∃ h, insShiftBody s (i + 1) = .ok { s with heap := h } ∧
      Rep zt { s with heap := h } ps (ls.set (i + 1) l) qs log := by
  have hlen := H.length_eq
  have hle := H.length_ps
  obtain ⟨hl0, hl1⟩ := H.line_spec (List.mem_of_getElem? hl)
  obtain ⟨q, hq⟩ := H.exists_ptr (i := i) (by omega)
  obtain ⟨p, hp⟩ := H.exists_ptr hi
  obtain ⟨h, h', hm, H₁, hc, H₂⟩ := H.memset_strcpy hi hl0 hl1
  have hq' : State.strAt { s with heap := h } q 0 = .ok l :=
    H₁.strAt_line hq (by rw [List.getElem?_set_ne (by omega), hl])
  refine ⟨h', ?_, H₂⟩
  simp only [insShiftBody, Nat.add_sub_cancel, H.slot_eq (by omega : i < 256),
    H.slot_eq (by omega : i + 1 < 256), hq, hp, bind, Except.bind, hm, hq', hc]

theorem insShiftBody_end (H : Rep zt s ps ls qs log) (hi : ls.length = i + 1) (hi' : i + 1 < 256)
    {l : Line} (hl : ls[i]? = some l) :
    ∃ p t h, insShiftBody s (i + 1) = .ok { s with text := t, heap := h } ∧
      Rep zt { s with text := t, heap := h } (ps ++ [p]) (ls ++ [l]) qs log := by
  have hlen := H.length_eq
  obtain ⟨hl0, hl1⟩ := H.line_spec (List.mem_of_getElem? hl)
  obtain ⟨q, hq⟩ := H.exists_ptr (i := i) (by omega)
  have hp : ps[i + 1]? = none := List.getElem?_eq_none (by omega)
  obtain ⟨t, h₁, h₂, hset, -, hm, H₁⟩ := H.alloc_memset (by omega)
  obtain ⟨h₃, hc, H₂⟩ := H₁.strcpySlot (i := i + 1) (by simp [hi]) hl0 hl1 (by simp [hi])
  have hq' : State.strAt { s with text := t, heap := h₂ } q 0 = .ok l :=
    H₁.strAt_line (i := i) (by rw [List.getElem?_append_left (by omega), hq])
      (by rw [List.getElem?_append_left (by omega), hl])
  rw [hi] at hset hm
  refine ⟨s.malloc.1, t, h₃, ?_, ?_⟩
  · simp only [insShiftBody, Nat.add_sub_cancel, H.slot_eq (by omega : i < 256),
      H.slot_eq hi', hq, hp, bind, Except.bind, hset, hm, hq', hc]
  · rw [List.set_append_right _ _ (by omega)] at H₂
    simpa [hi] using H₂

/-- The loop inside the text: every line above `m` takes the text of the line before it. -/
theorem insShift_up (H : Rep zt s ps ls qs log) (hi : i < ls.length) :
    ∃ h ls', insShift m i s = .ok { s with heap := h } ∧
      Rep zt { s with heap := h } ps ls' qs log ∧
      ∀ j, ls'[j]? = if m < j ∧ j ≤ i then ls[j - 1]? else ls[j]? := by
  induction i generalizing s ls with
  | zero => exact ⟨s.heap, ls, rfl, H, fun j => by rw [if_neg (by omega)]⟩
  | succ i ih =>
    rw [insShift]
    split_ifs with hm
    · -- line `i + 1` is done; the rounds that follow do not touch it again
      obtain ⟨h, hb, H₁⟩ := H.insShiftBody_line hi (List.getElem?_eq_getElem (by omega))
      obtain ⟨h', ls', hr, H₂, hls⟩ := ih H₁ (by rw [List.length_set]; omega)
      refine ⟨h', ls', by simp only [hb, bind, Except.bind, hr], H₂, fun j => ?_⟩
      rw [hls]
      rcases Nat.lt_trichotomy j (i + 1) with hj | rfl | hj
      · rw [List.getElem?_set_ne (by omega), List.getElem?_set_ne (by omega)]
        congr 1
        exact propext ⟨fun h => ⟨h.1, by omega⟩, fun h => ⟨h.1, by omega⟩⟩
      · rw [if_neg (by omega), if_pos ⟨hm, le_rfl⟩, List.getElem?_set_self hi,
          Nat.add_sub_cancel, List.getElem?_eq_getElem]
      · rw [if_neg (by omega), if_neg (by omega), List.getElem?_set_ne (by omega)]
    · exact ⟨s.heap, ls, rfl, H, fun j => by rw [if_neg (by omega)]⟩

/-- The whole loop for a position inside the text: there is one line more, and a content put at
`m` is inserted there. -/
theorem insShift_lt (H : Rep zt s ps ls qs log) (hm : m < ls.length) (hk : ls.length ≤ 255) :
    ∃ p t h ls', insShift m 255 s = .ok { s with text := t, heap := h } ∧
      Rep zt { s with text := t, heap := h } (ps ++ [p]) ls' qs log ∧ m < ls'.length ∧
      ∀ c, ls'.set m c = ls.insertIdx m c := by
  obtain ⟨k, hk'⟩ : ∃ k, ls.length = k + 1 := ⟨ls.length - 1, by omega⟩
  obtain ⟨l, hlast⟩ : ∃ l, ls[k]? = some l := ⟨_, List.getElem?_eq_getElem (by omega)⟩
  obtain ⟨p, t, h, hb, H₁⟩ := H.insShiftBody_end hk' (by omega) hlast
  obtain ⟨h', ls', hr, H₂, hls⟩ := H₁.insShift_up (m := m) (i := k) (by simp; omega)
  have hlen : ls'.length = ls.length + 1 := by
    have := H₂.length_eq
    have := H.length_eq
    simp at *
    omega
  refine ⟨p, t, h', ls', ?_, H₂, by omega, fun c => ?_⟩
  · rw [H.insShift_skip (j := k + 1) (by omega) (by omega) (by omega) le_rfl, insShift,
      if_pos (by omega)]
    simp only [hb, bind, Except.bind, hr]
  · apply List.ext_getElem?
    intro j
    rw [List.getElem?_set, hls, List.getElem?_insertIdx, hlen]
    rcases Nat.lt_trichotomy j m with hj | rfl | hj
    · rw [if_neg (by omega), if_neg (by omega), if_pos hj, List.getElem?_append_left (by omega)]
    · rw [if_pos rfl, if_pos (by omega), if_neg (by omega), if_pos rfl, if_pos (by omega)]
    · rw [if_neg (show ¬m = j by omega), if_neg (show ¬j < m by omega),
        if_neg (show ¬j = m by omega)]
      rcases Nat.lt_trichotomy j (k + 1) with hj' | rfl | hj'
      · rw [if_pos (by omega), List.getElem?_append_left (by omega)]
      · rw [if_neg (by omega), List.getElem?_append_right (by omega), hk', Nat.sub_self,
          Nat.add_sub_cancel, hlast]
        rfl
      · rw [if_neg (by omega), List.getElem?_eq_none (by simp; omega),
          List.getElem?_eq_none (by omega)]

theorem insShift_length (H : Rep zt s ps ls qs log) (hk : ls.length ≤ 255) :
    insShift ls.length 255 s = .ok s := by
  rw [H.insShift_skip le_rfl le_rfl hk le_rfl]
  cases ls.length with
  | zero => rfl
  | succ k => rw [insShift, if_neg (by omega)]

/-! ### Downwards -/

/-- The loop of `com_del` from an empty line `i` on: every line from `i` on takes the text of the
line behind it, and the last one is empty. -/
theorem delShift_down (fuel : ℕ) (H : Rep zt s ps ls qs log) (hle : ls.length ≤ 255)
    (hi : i < ls.length) (hf : ls.length ≤ fuel + i) (he : ls[i]? = some []) :
    ∃ h ls', delShift fuel i s = .ok (ls.length - 1, { s with heap := h }) ∧
      Rep zt { s with heap := h } ps ls' qs log ∧
      ∀ j, ls'[j]? =
        if j + 1 = ls.length then some [] else if i ≤ j then ls[j + 1]? else ls[j]? := by
  have hlen := H.length_eq
  induction fuel generalizing s ls i with
  | zero => omega
  | succ fuel ih =>
    rw [delShift]
    by_cases hend : i + 1 = ls.length
    · -- the last line: the NULL behind it ends the loop
      have hp : ps[i + 1]? = none := List.getElem?_eq_none (by omega)
      refine ⟨s.heap, ls, ?_, H, fun j => ?_⟩
      · simp only [H.slot_eq (by omega : i + 1 < 256), hp, bind, Except.bind]
        rw [show ls.length - 1 = i by omega]
      · split_ifs with h1 h2
        · rw [show j = i by omega, he]
        · rw [List.getElem?_eq_none (by omega), List.getElem?_eq_none (by omega)]
        · rfl
    · -- the next line is copied into line `i` and emptied, so that the loop goes on as it began
      obtain ⟨q, hq⟩ := H.exists_ptr (i := i + 1) (by omega)
      have hl : ls[i + 1]? = some ls[i + 1] := List.getElem?_eq_getElem _
      obtain ⟨hl0, hl1⟩ := H.line_spec (List.mem_of_getElem? hl)
      obtain ⟨h, hc, H₁⟩ := H.strcpySlot hi hl0 hl1 fun _ => he
      obtain ⟨h', hm, H₂⟩ := H₁.memsetSlot (i := i + 1) (by rw [List.length_set]; omega)
      have he' : ((ls.set i ls[i + 1]).set (i + 1) [])[i + 1]? = some [] :=
        List.getElem?_set_self (by rw [List.length_set]; omega)
      obtain ⟨h'', ls', hr, H₃, hls⟩ := ih H₂ (by simpa using hle) (by simp; omega)
        (by simp; omega) he' (by simpa using hlen)
      refine ⟨h'', ls', ?_, H₃, fun j => ?_⟩
      · simp only [H.slot_eq (by omega : i + 1 < 256), hq, bind, Except.bind, H.strAt_line hq hl,
          hc, hm, hr, List.length_set]
      · rw [hls]
        simp only [List.length_set]
        split_ifs with h1 h2 h3 h4
        · rfl
        · rw [List.getElem?_set_ne (by omega), List.getElem?_set_ne (by omega)]
        · omega
        · rw [show j = i by omega, List.getElem?_set_ne (by omega),
            List.getElem?_set_self (by omega), hl]
        · rw [List.getElem?_set_ne (by omega), List.getElem?_set_ne (by omega)]

end Rep

end Xv6Editor
