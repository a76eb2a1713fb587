import Xv6Editor.Editor.Commands

/-!
# The two phases of an edit

`com_ins` and `com_mod` first change the text (`insText`, `modText`) and then record what they did
and show the text (`finishEdit`).  With the phases apart, each can be followed on its own.

* `comIns_eq`, `comMod_eq` : the functions are their two phases, one after the other.
-/

namespace Xv6Editor

/-- `if(flag) strcpy(part4, text[m]);`: the copy for the undo record, if there is to be one. -/
def copyLine (s : State) (m : ℕ) (flag : Bool) : Except Halt (Option Line × State) := do
  let (part4, s) ← if flag then s.slotStr m else .ok ([], s)
  .ok (if flag then some part4 else none, s)

/-- `memset(text[m], 0, MAX_LINE_LENGTH); strcpy(text[m], input);`. -/
def putLine (s : State) (m : ℕ) (input : Line) : Except Halt State := do
  let s ← s.memsetSlot m
  s.strcpySlot m input

/-- `com_ins` after the last line: the new line, or the empty last one, takes the content. -/
def insBehind (s : State) (m : ℕ) (input : Line) (part4 : Option Line) :
    Except Halt (Option Line × State) := do
  let (p, s) := s.malloc
  let s ← s.setSlot m (some p)
  if m = 0 then fail (.textIndex (-1))
  else
    let (prev, s) ← s.slotStr (m - 1)
    if prev = [] then
      -- there is no record of this
      let s ← s.memsetSlot m
      .ok (none, ← s.strcpySlot (m - 1) input)
    else .ok (part4, ← putLine s m input)

/-- What `com_ins` does to the text, for a line number it accepts, and the copy for the record. -/
def insText (s : State) (n : ℤ) (extra : Line) (flag : Bool) :
    Except Halt (Option Line × State) := do
  let m := (n - 1).toNat
  let (input, s) ← readContent s extra
  let (part4, s) ← copyLine s m flag
  let s ← insShift m 255 s
  match ← s.slot m with
  | some _ => .ok (part4, ← putLine s m input)
  | none => insBehind s m input part4

/-- What `com_mod` does to the text, for a line number it accepts, and the copy for the record. -/
def modText (s : State) (n : ℤ) (extra : Line) (flag : Bool) :
    Except Halt (Option Line × State) := do
  let m := (n - 1).toNat
  let (input, s) ← readContent s extra
  let (part4, s) ← copyLine s m flag
  .ok (part4, ← putLine s m input)

/-- The end of both: the record, if there is one, and the display. -/
def finishEdit (disp : Display) (s : State) (op : String) (n : ℤ) (part4 : Option Line) :
    Except Halt State := do
  let s := { s with changed := true }
  let s ← match part4 with
    | some part4 => recordCommand s (undoRecord op n part4)
    | none => .ok s
  autoDisplay disp s

variable (disp : Display) (s : State) (n : ℤ) (extra : Line) (flag : Bool)

theorem ok_bind {α β : Type} (a : α) (f : α → Except Halt β) : (Except.ok a >>= f) = f a := rfl

theorem finishEdit_ite (op : String) (part4 : Line) :
    finishEdit disp s op n (if flag then some part4 else none) =
      (if flag then recordCommand { s with changed := true } (undoRecord op n part4)
        else .ok { s with changed := true }) >>= autoDisplay disp := by
  cases flag with
  | false => rfl
  | true => rfl

theorem insPlace_eq (m : ℕ) (input part4 : Line) :
    insPlace disp s m n input part4 flag = putLine s m input >>= fun s =>
      finishEdit disp s "ins-" n (if flag then some part4 else none) := by
  simp only [insPlace, putLine, finishEdit_ite, bind_assoc]
  cases flag with
  | false => rfl
  | true => rfl

theorem insBehind_eq (m : ℕ) (input part4 : Line) :
    (s.malloc.2.setSlot m (some s.malloc.1) >>= fun s =>
      if m = 0 then fail (.textIndex (-1))
      else s.slotStr (m - 1) >>= fun r =>
        if r.1 = [] then r.2.memsetSlot m >>= fun s => s.strcpySlot (m - 1) input >>= fun s =>
          autoDisplay disp { s with changed := true }
        else insPlace disp r.2 m n input part4 flag) =
    insBehind s m input (if flag then some part4 else none) >>= fun r =>
      finishEdit disp r.2 "ins-" n r.1 := by
  simp only [insBehind, bind_assoc, insPlace_eq]
  refine bind_congr fun s => ?_
  by_cases hm : m = 0
  · rw [if_pos hm, if_pos hm]
    rfl
  · rw [if_neg hm, if_neg hm, bind_assoc]
    refine bind_congr fun r => ?_
    by_cases hr : r.1 = []
    · rw [if_pos hr, if_pos hr, bind_assoc]
      simp only [bind_assoc]
      rfl
    · rw [if_neg hr, if_neg hr, bind_assoc]
      rfl

theorem comIns_eq : comIns disp s n extra flag =
    if n ≤ 0 ∨ n > getLineNumber s.text + 1 + 1 then .ok (s.print (alarm "invalid line number"))
    else insText s n extra flag >>= fun r => finishEdit disp r.2 "ins-" n r.1 := by
  rw [comIns]
  refine if_congr Iff.rfl rfl ?_
  simp only [insText, copyLine, bind_assoc]
  refine bind_congr fun r => ?_
  cases flag with
  | false =>
    simp only [Bool.false_eq_true, if_false, ok_bind]
    refine bind_congr fun s => bind_congr fun o => ?_
    cases o with
    | some _ =>
      simp only [insPlace_eq, bind_assoc]
      rfl
    | none => exact insBehind_eq disp s n false _ r.1 []
  | true =>
    simp only [if_true, bind_assoc, ok_bind]
    refine bind_congr fun l => bind_congr fun s => bind_congr fun o => ?_
    cases o with
    | some _ =>
      simp only [insPlace_eq, bind_assoc]
      rfl
    | none => exact insBehind_eq disp s n true _ r.1 l.1

theorem comMod_eq : comMod disp s n extra flag =
    if n ≤ 0 ∨ n > getLineNumber s.text + 1 then .ok (s.print (alarm "invalid line number"))
    else modText s n extra flag >>= fun r => finishEdit disp r.2 "mod-" n r.1 := by
  rw [comMod]
  refine if_congr Iff.rfl rfl ?_
  simp only [modText, copyLine, putLine, bind_assoc]
  refine bind_congr fun r => ?_
  cases flag with
  | false => rfl
  | true =>
    simp only [if_true, bind_assoc, ok_bind]
    rfl

end Xv6Editor
