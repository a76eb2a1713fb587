import Xv6Editor.Runs.Frame
import Xv6Editor.Runs.Invariant

/-!
# A full array stays full

Once all 256 slots of `text` are in use no command gives one back: `com_del`, the only one that
would, runs out of the array.  So a prompt with at most 255 lines is reached without ever having
more: `Reachable.run`.
-/

namespace Xv6Editor

/-- No slot of `text` is NULL. -/
def State.Full (s : State) : Prop := ∀ o ∈ s.text.toList, o ≠ none

namespace State.Full

variable {s : State}

theorem setSlot (h : s.Full) (i : ℕ) (p : Ptr) : Ensures State.Full (s.setSlot i (some p)) := by
  unfold State.setSlot
  split
  · refine .ok fun o ho => ?_
    rw [Vector.toList_set] at ho
    obtain ho | rfl := List.mem_or_eq_of_mem_set ho
    · exact h o ho
    · simp
  · exact .error _

theorem frame (disp : Display) : Frame disp State.Full fun _ => True where
  congr := by
    intro s s' h ht _
    unfold State.Full
    rwa [ht]
  setSlot i p h := ⟨h.setSlot i p, fun _ _ => trivial⟩
  fault _ := trivial
  exited _ := trivial
  display _ := ⟨.trivial _, fun _ _ => trivial⟩

/-- The loop of `com_del` does not find its NULL. -/
theorem delShift (h : s.Full) (fuel i : ℕ) : Ensures (fun _ => False) (delShift fuel i s) := by
  have F := frame noDisplay
  induction fuel generalizing s i with
  | zero => exact .error _
  | succ fuel ih =>
    have hslot : Ensures (fun o => o ≠ none) (s.slot (i + 1)) := by
      unfold State.slot
      split
      · rename_i o ho
        rw [← Vector.getElem?_toList] at ho
        exact .ok (h o (List.mem_of_getElem? ho))
      · exact .error _
    refine .bind hslot fun o ho => ?_
    cases o with
    | none => exact absurd rfl ho
    | some q =>
      exact .bind (.trivial _) fun c _ => .bind (F.strcpySlot h i c).1 fun _ h =>
        .bind (F.memsetSlot h (i + 1)).1 fun _ h => ih h (i + 1)

/-- `com_del` returns only if it refuses the line number. -/
theorem comDel_refused (h : s.Full) (disp : Display) (n : ℤ) (flag : Bool) :
    Ensures (fun s' => s' = s.print (alarm "invalid line number")) (comDel disp s n flag) := by
  have F := frame disp
  refine .ite (fun _ => .ok rfl) fun _ => .ite_bind (fun _ => (F.slotStr h _).1) (fun _ => .ok h) ?_
  rintro ⟨part4, s⟩ h
  exact .bind (F.memsetSlot h _).1 fun _ h => .bind (h.delShift _ _) fun _ h => h.elim

theorem comDel (h : s.Full) (disp : Display) (n : ℤ) (flag : Bool) :
    Ensures State.Full (comDel disp s n flag) := by
  intro s' hs
  rw [h.comDel_refused disp n flag s' hs]
  exact h

theorem closedFrame (disp : Display) : ClosedFrame disp State.Full fun _ => True where
  toFrame := frame disp
  read h := by
    rw [getLine_eq]
    exact .ite (fun _ => .error trivial) fun _ => .ok h
  del n flag h := ⟨h.comDel disp n flag, fun _ _ => trivial⟩
  exit _ :=
    ⟨.bind (.trivial _) fun _ _ => .bind (.trivial _) fun _ _ => .error _, fun _ _ => trivial⟩

theorem promptStep (h : s.Full) (disp : Display) : Ensures State.Full (promptStep disp s) :=
  ((closedFrame disp).promptStep h).1

theorem length_lines (h : s.Full) : s.lines.length = 256 := by
  have hall : s.text.toList.takeWhile Option.isSome = s.text.toList :=
    List.takeWhile_eq_self_iff.2 fun o ho => Option.isSome_iff_ne_none.2 (h o ho)
  have hlen : (s.text.toList.filterMap id).length = s.text.toList.length :=
    List.filterMap_length_eq_length.2 fun o ho => Option.isSome_iff_ne_none.2 (h o ho)
  rw [State.lines, State.lineSlots, hall, List.length_map, hlen, Vector.length_toList]

end State.Full

variable {disp : Display} {zt : Prop} {s : State} {d : Doc}

/-! ### Runs -/

theorem Mem.full (M : Mem zt s d) (hk : 255 < d.lines.length) : s.Full := by
  obtain ⟨ps, qs, H⟩ := M.rep
  have hlen := H.length_eq
  have hle := H.length_ps
  intro o ho
  rw [H.text_eq, slots, show 256 - ps.length = 0 by omega, List.replicate_zero, List.append_nil]
    at ho
  obtain ⟨p, -, rfl⟩ := List.mem_map.1 ho
  simp

/-- A prompt with at most 255 lines is reached by a run that never has more. -/
theorem Reachable.run (h : Reachable disp s) (hk : s.lines.length ≤ 255) :
    ∃ s₀, Run disp 255 s₀ s := by
  obtain ⟨s₀, hi, hs⟩ := h
  have hrun : Run disp 255 s₀ s ∨ s.Full := by
    clear hk
    induction hs with
    | refl =>
      obtain ⟨d, A, -⟩ := hi.abs
      rcases Nat.lt_or_ge 255 d.lines.length with hlt | hle
      · exact .inr (A.full hlt)
      · exact .inl ⟨hi, A.lines_eq ▸ hle, .refl⟩
    | tail _ hstep ih =>
      rcases ih with R | hf
      · obtain ⟨d, A, W, hd, -⟩ := R.abs
        obtain ⟨d', -, A', -⟩ := A.step_of_ok W hd hstep
        rcases Nat.lt_or_ge 255 d'.lines.length with hlt | hle
        · exact .inr (A'.full hlt)
        · exact .inl ⟨hi, R.length_le, R.steps.tail ⟨hstep, A'.lines_eq ▸ hle⟩⟩
      · exact .inr (hf.promptStep disp _ hstep)
  rcases hrun with R | hf
  · exact ⟨s₀, R⟩
  · have := hf.length_lines
    omega

end Xv6Editor
