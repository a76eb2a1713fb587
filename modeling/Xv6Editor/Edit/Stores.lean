import Xv6Editor.CMem.Trace
import Xv6Editor.Input.End

/-!
# The bytes that `strcat_n` stores

`strcat_n` stops at 255 bytes, whatever the size of the array it appends to.  Here the functions
that call it, and `number2string`, note every byte they store: the loader, which appends to lines of
256 bytes, and the end of `com_ins` and `com_mod`, where the undo record is put together in an
array that has just the size of its first four characters.

A fault of the model is not the end of the story here, as the code goes on behind it and may come to
its stores.  So the commands are followed from `State.goOn`, where the content that they ask for is
there, and `com_ins` behind a full text goes on with what it finds in `text[256]` (`past`).

* `Stores.openFile_result`, `Stores.exec_result` : apart from the notes, and from `text[256]`, the
  functions are those of the model.
* `stores_inside_iff` : the loader and `number2string` stay inside their arrays; `com_ins` and
  `com_mod` do so if and only if they make no record.
-/

namespace Xv6Editor

/-- The arrays that bytes are stored in. -/
inductive Dest
  /-- A line of the text. -/
  | line
  /-- `char part1[] = op;`. -/
  | part1 (op : String)
  /-- `char part2[10];`. -/
  | part2
  deriving DecidableEq

/-- The size of an array. -/
def Dest.size : Dest → ℕ
  | line => 256
  | part1 op => (bytesOf op).length + 1
  | part2 => 10

/-- A byte is stored at a position of an array. -/
structure Store where
  dest : Dest
  pos : ℕ
  deriving DecidableEq

/-- The position is one of the array. -/
def Store.Inside (w : Store) : Prop := w.pos < w.dest.size

instance (w : Store) : Decidable w.Inside := inferInstanceAs (Decidable (_ < _))

/-- The command makes an undo record: its line number is accepted.  There is none if an empty last
line is filled, because the slot behind it is NULL; behind a full text that is `past`. -/
def State.Records (s : State) (past : Option Line) : Command → Prop
  | .ins n _ => 1 ≤ n ∧ n ≤ s.lines.length + 1 ∧
      ¬(n = s.lines.length + 1 ∧ s.lines.getLast? = some [] ∧ (n = 257 → past = none))
  | .mod n _ => 1 ≤ n ∧ n ≤ s.lines.length
  | _ => False

namespace Stores

/-! ### The functions with notes -/

/-- The bytes `cs` are stored from position `pos` on, one after the other. -/
def storeBytes (a : Dest) : ℕ → List UInt8 → List UInt8 → Traced Store Halt (List UInt8)
  | _, [], m => pure m
  | pos, c :: cs, m => do
    Traced.note ⟨a, pos⟩
    storeBytes a (pos + 1) cs (poke m pos [c])

/-- `strcat_n(dest, src, len)`. -/
def strcatN (a : Dest) (dest src : List UInt8) (len : ℕ) : Traced Store Halt (List UInt8) :=
  if len = 0 then pure dest
  else
    let pos := (cstr dest).length
    if len + pos ≥ 256 then pure dest else storeBytes a pos (src.take len ++ [0]) dest

/-- `number2string(num, part2)`. -/
def number2string (num : ℤ) : Traced Store Halt Line := do
  let _ ← storeBytes .part2 0 (Xv6Editor.number2string num ++ [0]) []
  pure (Xv6Editor.number2string num)

/-- The undo record for line `n` with content `part4`. -/
def undoRecord (op : String) (n : ℤ) (part4 : Line) : Traced Store Halt Line := do
  let part2 ← number2string n
  let part1 ← strcatN (.part1 op) (bytesOf op ++ [0]) part2 part2.length
  let part3 := bytesOf " "
  let part1 ← strcatN (.part1 op) part1 part3 part3.length
  let part1 ← strcatN (.part1 op) part1 part4 part4.length
  pure (cstr part1)

/-- The end of `com_ins` and `com_mod`. -/
def finishEdit (disp : Display) (s : State) (op : String) (n : ℤ) :
    Option Line → Traced Store Halt State
  | some part4 => do
    let command ← undoRecord op n part4
    let s ← Traced.quiet (recordCommand { s with changed := true } command)
    Traced.quiet (autoDisplay disp s)
  | none => Traced.quiet (autoDisplay disp { s with changed := true })

/-- What `com_ins` does for line 257, if it finds `past` in `text[256]`: NULL, or a pointer to a
string.  No line is moved, and the content goes to a place outside the text. -/
def insPast (past : Option Line) (s : State) (extra : Line) (flag : Bool) :
    Except Halt (Option Line × State) := do
  let (input, s) ← readContent s extra
  match past with
  | some l => .ok (if flag then some l else none, s)
  | none =>
    let (_, s) := s.malloc
    let (prev, s) ← s.slotStr 255
    if prev = [] then .ok (none, ← s.strcpySlot 255 input)
    else .ok (if flag then some s.page0 else none, s)

/-- What `com_ins` does to the text, for a line number it accepts, and the copy for the record. -/
def insText (past : Option Line) (s : State) (n : ℤ) (extra : Line) (flag : Bool) :
    Except Halt (Option Line × State) :=
  if n = 257 then insPast past s extra flag else Xv6Editor.insText s n extra flag

/-- `com_ins(text, n, extra, flag)`. -/
def comIns (past : Option Line) (disp : Display) (s : State) (n : ℤ) (extra : Line) (flag : Bool) :
    Traced Store Halt State :=
  if n ≤ 0 ∨ n > getLineNumber s.text + 1 + 1 then pure (s.print (alarm "invalid line number"))
  else do
    let (part4, s) ← Traced.quiet (insText past s n extra flag)
    finishEdit disp s "ins-" n part4

/-- `com_mod(text, n, extra, flag)`. -/
def comMod (disp : Display) (s : State) (n : ℤ) (extra : Line) (flag : Bool) :
    Traced Store Halt State :=
  if n ≤ 0 ∨ n > getLineNumber s.text + 1 then pure (s.print (alarm "invalid line number"))
  else do
    let (part4, s) ← Traced.quiet (modText s n extra flag)
    finishEdit disp s "mod-" n part4

/-- The branch of the command loop for one command; the others do not append anything. -/
def exec (past : Option Line) (disp : Display) (c : Command) (s : State) :
    Traced Store Halt State :=
  match c with
  | .ins n extra => do
    let s ← comIns past disp s n extra true
    pure (updateLineNumber s)
  | .mod n extra => comMod disp s n extra true
  | c => Traced.quiet (Xv6Editor.exec disp c s)

/-- `strcat_n(text[line_number], buf+next, i-next)`. -/
def appendSegment (s : State) (seg : Line) : Traced Store Halt State := do
  let p ← Traced.quiet (s.slotPtr s.lineNumber.toNat)
  let _ ← Traced.quiet (s.strAt p 0)
  let b ← Traced.quiet (s.block p)
  let bytes ← strcatN .line b.bytes seg seg.length
  Traced.quiet (s.putBytes p bytes)

/-- The inner loop of the loader. -/
def loadBuf : Line → List UInt8 → State → Traced Store Halt (Bool × State)
  | seg, [], s => do
    let s ← appendSegment s seg
    pure (false, s)
  | seg, c :: cs, s =>
    if c = '\n'.toUInt8 then do
      let s ← appendSegment s seg
      if s.lineNumber ≥ 256 - 1 then pure (true, s)
      else
        let s ← Traced.quiet (newLine s)
        if cs = [] then pure (false, s) else loadBuf [] cs s
    else loadBuf (seg ++ [c]) cs s

/-- The outer loop of the loader. -/
def loadReads : List (List UInt8) → State → Traced Store Halt State
  | [], s => pure s
  | buf :: reads, s => do
    let (isFull, s) ← loadBuf [] buf s
    if isFull then pure s else loadReads reads s

/-- Open the file and, if there is none, create it. -/
def openFile (b : Boot) (reads : List (List UInt8)) : Traced Store Halt State := do
  let s ← Traced.quiet (firstLine b.state)
  match b.file with
  | some _ => loadReads reads s
  | none => Traced.quiet (comCreateNewFile s)

variable {disp : Display} {zt : Prop} {s s' : State} {d : Doc} {a : Dest} {w : Store}
  {m cs src seg extra part4 : Line} {pos len k : ℕ} {n : ℤ} {op : String} {flag : Bool}
  {c : Command} {past : Option Line}

/-! ### Their results -/

theorem storeBytes_result (h : pos ≤ m.length) (a : Dest) (cs : List UInt8) :
    (storeBytes a pos cs m).result = .ok (poke m pos cs) := by
  induction cs generalizing pos m with
  | nil =>
    rw [poke_nil]
    rfl
  | cons c cs ih =>
    have hone : pos + 1 ≤ (poke m pos [c]).length :=
      le_length_poke (d := [c]) h
    have htwo : poke (poke m pos [c]) (pos + 1) cs = poke m pos (c :: cs) :=
      poke_poke (d := [c]) h
    rw [storeBytes, Traced.result_bind_ok (Traced.result_note _), ih hone, htwo]

@[simp] theorem strcatN_result (a : Dest) (m src : List UInt8) (len : ℕ) :
    (strcatN a m src len).result = .ok (Xv6Editor.strcatN m src len) := by
  rw [strcatN, Xv6Editor.strcatN]
  simp only [Traced.result_ite, Traced.result_pure]
  rw [storeBytes_result (cstr_sublist m).length_le]
  split_ifs <;> rfl

@[simp] theorem number2string_result (n : ℤ) :
    (number2string n).result = .ok (Xv6Editor.number2string n) := by
  rw [number2string, Traced.result_bind_ok (storeBytes_result (Nat.zero_le _) _ _)]
  rfl

@[simp] theorem undoRecord_result (op : String) (n : ℤ) (part4 : Line) :
    (undoRecord op n part4).result = .ok (Xv6Editor.undoRecord op n part4) := by
  rw [undoRecord, Traced.result_bind_ok (number2string_result n),
    Traced.result_bind_ok (strcatN_result ..), Traced.result_bind_ok (strcatN_result ..),
    Traced.result_bind_ok (strcatN_result ..)]
  rfl

@[simp] theorem finishEdit_result (disp : Display) (s : State) (op : String) (n : ℤ)
    (part4 : Option Line) :
    (finishEdit disp s op n part4).result = Xv6Editor.finishEdit disp s op n part4 := by
  cases part4 with
  | none => rfl
  | some l =>
    rw [finishEdit, Traced.result_bind_ok (undoRecord_result op n l), Traced.result_bind]
    rfl

theorem comIns_result (past : Option Line) (disp : Display) (extra : Line) (flag : Bool)
    (hn : n = 257 → getLineNumber s.text ≤ 254) :
    (comIns past disp s n extra flag).result = Xv6Editor.comIns disp s n extra flag := by
  rw [comIns, comIns_eq, Traced.result_ite, Traced.result_bind]
  simp only [finishEdit_result, Traced.result_quiet, Traced.result_pure]
  refine if_ctx_congr Iff.rfl (fun _ => rfl) fun hacc => ?_
  rw [insText, if_neg fun h => hacc (.inr (by have := hn h; omega))]

theorem comMod_result (disp : Display) (s : State) (n : ℤ) (extra : Line) (flag : Bool) :
    (comMod disp s n extra flag).result = Xv6Editor.comMod disp s n extra flag := by
  rw [comMod, comMod_eq, Traced.result_ite, Traced.result_bind]
  simp only [finishEdit_result, Traced.result_quiet, Traced.result_pure]

theorem exec_result (past : Option Line) (disp : Display)
    (hc : ∀ extra, c = .ins 257 extra → getLineNumber s.text ≤ 254) :
    (exec past disp c s).result = Xv6Editor.exec disp c s := by
  cases c with
  | ins n extra =>
    rw [exec, Traced.result_bind, comIns_result past disp extra true fun h => hc extra (by rw [h])]
    rfl
  | mod n extra => exact comMod_result disp s n extra true
  | del | «show» | hide | rb | help | save | exit | demo | init | disp | normaldisp | invalid => rfl

theorem appendSegment_result (s : State) (seg : Line) :
    (appendSegment s seg).result = Xv6Editor.appendSegment s seg := by
  simp only [appendSegment, Traced.result_bind, Traced.result_quiet, strcatN_result, ok_bind]
  rfl

theorem loadBuf_result (seg cs : List UInt8) (s : State) :
    (loadBuf seg cs s).result = Xv6Editor.loadBuf seg cs s := by
  induction cs generalizing seg s with
  | nil =>
    rw [loadBuf, Xv6Editor.loadBuf, Traced.result_bind, appendSegment_result]
    rfl
  | cons c cs ih =>
    rw [loadBuf, Xv6Editor.loadBuf]
    simp only [Traced.result_ite, Traced.result_bind, Traced.result_quiet, Traced.result_pure,
      appendSegment_result, ih]

theorem loadReads_result (reads : List (List UInt8)) (s : State) :
    (loadReads reads s).result = Xv6Editor.loadReads reads s := by
  induction reads generalizing s with
  | nil => rfl
  | cons buf reads ih =>
    simp only [loadReads, Xv6Editor.loadReads, Traced.result_ite, Traced.result_bind,
      Traced.result_pure, loadBuf_result, ih]

theorem openFile_result (b : Boot) (reads : List (List UInt8)) :
    (openFile b reads).result = Xv6Editor.openFile b reads := by
  rw [openFile, Xv6Editor.openFile, Traced.result_bind]
  cases b.file with
  | none => rfl
  | some bs => simp only [loadReads_result, Traced.result_quiet]

/-! ### What is stored -/

theorem mem_storeBytes : w ∈ (storeBytes a pos cs m).events ↔
    w.dest = a ∧ pos ≤ w.pos ∧ w.pos < pos + cs.length := by
  induction cs generalizing pos m with
  | nil =>
    rw [storeBytes, Traced.events_pure, List.length_nil]
    simp only [List.not_mem_nil, false_iff]
    omega
  | cons c cs ih =>
    rw [storeBytes, Traced.events_bind_ok (Traced.result_note _), List.mem_append, ih,
      Traced.events_note, List.mem_singleton, List.length_cons]
    constructor
    · rintro (rfl | h)
      · exact ⟨rfl, le_rfl, by simp only; omega⟩
      · exact ⟨h.1, by omega, by omega⟩
    · rintro ⟨rfl, hle, hlt⟩
      rcases Nat.lt_or_eq_of_le hle with h | rfl
      · exact .inr ⟨rfl, h, by omega⟩
      · exact .inl rfl

/-- `strcat_n` stores nothing from position 256 on. -/
theorem strcatN_notes (a : Dest) (m src : List UInt8) (len : ℕ) :
    Traced.Notes (fun w => w.dest = a ∧ w.pos < 256) (strcatN a m src len) := by
  refine .ite (fun _ => .pure _) fun _ => .ite (fun _ => .pure _) fun hlen w hw => ?_
  obtain ⟨ha, -, hlt⟩ := mem_storeBytes.1 hw
  rw [List.length_append, List.length_take, List.length_singleton] at hlt
  exact ⟨ha, by omega⟩

/-- If it appends something, it stores the terminator behind it. -/
theorem mem_strcatN (hlen : len ≠ 0) (hsrc : len = src.length) (h : len + (cstr m).length < 256) :
    ⟨a, (cstr m).length + len⟩ ∈ (strcatN a m src len).events := by
  rw [strcatN, if_neg hlen, if_neg (by omega), mem_storeBytes]
  refine ⟨rfl, Nat.le_add_right _ _, ?_⟩
  rw [List.length_append, List.length_take, List.length_singleton]
  simp only
  omega

theorem number2string_notes (hk : k ≤ 257) :
    Traced.Notes (fun w => w.dest = .part2 ∧ w.Inside) (number2string k) := by
  have hd : (Xv6Editor.number2string k).length ≤ 3 := length_number2string_le (by omega) (by omega)
  refine .bind (fun w hw => ?_) fun _ _ => .pure _
  obtain ⟨ha, -, hlt⟩ := mem_storeBytes.1 hw
  rw [List.length_append, List.length_singleton] at hlt
  refine ⟨ha, ?_⟩
  rw [Store.Inside, ha, Dest.size]
  omega

theorem undoRecord_notes (hk : k ≤ 257) (op : String) (part4 : Line) :
    Traced.Notes (fun w => w.dest = .part2 → w.Inside) (undoRecord op k part4) := by
  have hcat : ∀ m src len, Traced.Notes (fun w => w.dest = .part2 → w.Inside)
      (strcatN (.part1 op) m src len) := fun m src len w hw h => by
    cases (strcatN_notes _ m src len w hw).1.symm.trans h
  refine .bind (fun w hw _ => (number2string_notes hk w hw).2) fun _ _ => .bind (hcat _ _ _)
    fun _ _ => .bind (hcat _ _ _) fun _ _ => .bind (hcat _ _ _) fun _ _ => .pure _

/-- The number does not fit into `part1` any more. -/
theorem undoRecord_outside (hop : op ∈ ["ins-", "mod-"]) (hk : k ≤ 257) (part4 : Line) :
    ∃ w ∈ (undoRecord op k part4).events, ¬w.Inside := by
  have hd : (Xv6Editor.number2string k).length ≤ 3 := length_number2string_le (by omega) (by omega)
  obtain ⟨hlen, h0, -⟩ := op_spec op hop
  have hpos : (cstr (bytesOf op ++ [0])).length = 4 := by
    rw [cstr_append_zero, cstr_eq_self h0, hlen]
  have hne : (Xv6Editor.number2string k).length ≠ 0 := fun h =>
    number2string_ne_nil k (List.length_eq_zero_iff.1 h)
  refine ⟨⟨.part1 op, 4 + (Xv6Editor.number2string k).length⟩, ?_, ?_⟩
  · rw [undoRecord, Traced.events_bind_ok (number2string_result k),
      Traced.events_bind_ok (strcatN_result ..)]
    refine List.mem_append_right _ (List.mem_append_left _ ?_)
    have := mem_strcatN (a := .part1 op) (m := bytesOf op ++ [0]) hne rfl (by omega)
    rwa [hpos] at this
  · rw [Store.Inside, Dest.size, hlen]
    simp only
    omega

theorem finishEdit_events (disp : Display) (s : State) (op : String) (n : ℤ)
    (part4 : Option Line) : (finishEdit disp s op n part4).events =
      part4.elim [] fun l => (undoRecord op n l).events := by
  cases part4 with
  | none => rfl
  | some l =>
    rw [finishEdit, Traced.events_bind_ok (undoRecord_result op n l),
      Traced.events_quiet_bind, List.append_nil]
    rfl

/-! ### The loader -/

theorem appendSegment_notes (s : State) (seg : Line) :
    Traced.Notes Store.Inside (appendSegment s seg) := by
  refine .bind (.quiet _) fun _ _ => .bind (.quiet _) fun _ _ => .bind (.quiet _) fun b _ =>
    .bind (fun w hw => ?_) fun _ _ => .quiet _
  obtain ⟨ha, hlt⟩ := strcatN_notes .line b.bytes seg seg.length w hw
  rw [Store.Inside, ha]
  exact hlt

theorem loadBuf_notes (seg cs : List UInt8) (s : State) :
    Traced.Notes Store.Inside (loadBuf seg cs s) := by
  induction cs generalizing seg s with
  | nil => exact .bind (appendSegment_notes s seg) fun _ _ => .pure _
  | cons c cs ih =>
    refine .ite (fun _ => .bind (appendSegment_notes s seg) fun s _ => ?_) fun _ => ih _ s
    exact .ite (fun _ => .pure _) fun _ => .bind (.quiet _) fun s _ =>
      .ite (fun _ => .pure _) fun _ => ih _ s

theorem loadReads_notes (reads : List (List UInt8)) (s : State) :
    Traced.Notes Store.Inside (loadReads reads s) := by
  induction reads generalizing s with
  | nil => exact .pure _
  | cons buf reads ih =>
    exact .bind (loadBuf_notes [] buf s) fun _ _ => .ite (fun _ => .pure _) fun _ => ih _

/-- The loader stays inside the lines. -/
theorem openFile_notes (b : Boot) (reads : List (List UInt8)) :
    Traced.Notes Store.Inside (openFile b reads) := by
  refine .bind (.quiet _) fun s _ => ?_
  cases b.file with
  | none => exact .quiet _
  | some bs => exact loadReads_notes reads s

/-! ### Edits -/

theorem insPast_record_iff (M : Mem False s d) (hk : d.lines.length = 256) (hx : 0 ∉ extra)
    (hlen : extra.length < 256) (hst : LineReady s.stdin) (past : Option Line) :
    (∃ l s', insPast past s extra true = .ok (some l, s')) ↔
      ¬(d.lines.getLast? = some [] ∧ past = none) := by
  obtain ⟨c, st, out, hr, -, -⟩ := M.readContent_ready hx hlen fun _ => hst
  rw [insPast, hr, ok_bind]
  cases past with
  | some l => exact iff_of_true ⟨l, _, rfl⟩ fun h => nomatch h.2
  | none =>
    obtain ⟨ps, qs, H⟩ := M.rep
    have H₁ : Rep False (State.malloc { s with stdin := st, console := out }).2 ps d.lines qs
        d.log :=
      Rep.malloc (H.congr rfl rfl rfl rfl)
    have h255 : 255 < d.lines.length := by omega
    have hlast : d.lines.getLast? = d.lines[255]? := by rw [List.getLast?_eq_getElem?, hk]
    rw [hlast, List.getElem?_eq_getElem h255]
    dsimp only
    rw [H₁.slotStr_eq (List.getElem?_eq_getElem h255), ok_bind]
    dsimp only
    by_cases h0 : d.lines[255] = []
    · rw [if_pos h0, h0]
      refine iff_of_false ?_ fun h => h ⟨rfl, rfl⟩
      rintro ⟨l, s', h⟩
      cases hcpy : (State.malloc { s with stdin := st, console := out }).2.strcpySlot 255 c with
      | error e =>
        rw [hcpy] at h
        cases h
      | ok s₂ =>
        rw [hcpy] at h
        cases h
    · rw [if_neg h0]
      exact iff_of_true ⟨_, _, rfl⟩ fun h => h0 (Option.some.inj h.1)

theorem insText_record_iff (M : Mem False s d) (h0 : d.lines ≠ []) (hx : 0 ∉ extra)
    (hlen : extra.length < 256) (hst : LineReady s.stdin) (past : Option Line) (hn : 1 ≤ n)
    (hn' : n ≤ d.lines.length + 1) :
    (∃ l s', insText past s n extra true = .ok (some l, s')) ↔
      ¬(n = d.lines.length + 1 ∧ d.lines.getLast? = some [] ∧ (n = 257 → past = none)) := by
  have hk := M.length_le
  by_cases h257 : n = 257
  · -- behind a full text
    have h256 : d.lines.length = 256 := by omega
    rw [insText, if_pos h257, insPast_record_iff M h256 hx hlen hst]
    simp only [h257, h256, true_imp_iff]
    norm_num
  rw [insText, if_neg h257]
  obtain ⟨c, st, out, hr, hc, hc'⟩ := M.readContent_ready hx hlen fun _ => hst
  obtain ⟨ps, qs, H⟩ := M.rep
  obtain ⟨m, rfl⟩ : ∃ m : ℕ, n = (m + 1 : ℕ) := ⟨(n - 1).toNat, by omega⟩
  rcases Nat.lt_or_eq_of_le (show m ≤ d.lines.length by omega) with hm | rfl
  · -- an existing line
    have hl := List.getElem?_eq_getElem hm
    refine iff_of_true ?_ fun h => by omega
    rcases Nat.lt_or_ge 255 d.lines.length with hfull | hle
    · obtain ⟨h, ht, -⟩ := H.insText_full (by omega) (by omega) hl hr hc hc' true
      exact ⟨_, _, ht⟩
    · obtain ⟨t, h, ps', ht, -⟩ := H.insText_lt hm hle hl hr hc hc' true
      exact ⟨_, _, ht⟩
  · -- after the last line
    obtain ⟨l, hl⟩ : ∃ l, d.lines.getLast? = some l := ⟨_, List.getLast?_eq_some_getLast h0⟩
    obtain ⟨t, h, ps', nr, ht, -⟩ := H.insText_length (by omega) hl hr hc hc' true
    rw [ht, hl]
    by_cases hl0 : l = []
    · rw [if_pos hl0, hl0]
      refine iff_of_false ?_ fun h => h ⟨by push_cast; rfl, rfl, fun h => absurd h h257⟩
      rintro ⟨l, s', h⟩
      cases h
    · rw [if_neg hl0, if_pos rfl]
      exact iff_of_true ⟨_, _, rfl⟩ fun h => hl0 (Option.some.inj h.2.1)

theorem modText_records (M : Mem False s d) (hx : 0 ∉ extra) (hlen : extra.length < 256)
    (hst : LineReady s.stdin) (hn : 1 ≤ n) (hn' : n ≤ d.lines.length) :
    ∃ l s', modText s n extra true = .ok (some l, s') := by
  obtain ⟨c, st, out, hr, hc, hc'⟩ := M.readContent_ready hx hlen fun _ => hst
  obtain ⟨ps, qs, H⟩ := M.rep
  obtain ⟨m, rfl⟩ : ∃ m : ℕ, n = (m + 1 : ℕ) := ⟨(n - 1).toNat, by omega⟩
  have hm : m < d.lines.length := by omega
  obtain ⟨h, ht, -⟩ := H.modText hm (List.getElem?_eq_getElem hm) hr hc hc' true
  exact ⟨_, _, ht⟩

/-- What an edit stores, once its line number is accepted: nothing, or a record. -/
theorem edit_inside_iff (disp : Display) (op : String) (hop : op ∈ ["ins-", "mod-"]) (hn : 0 ≤ n)
    (hn' : n ≤ 257) (r : Except Halt (Option Line × State)) :
    (∀ w ∈ (Traced.quiet r >>= fun r => finishEdit disp r.2 op n r.1).events,
      w.dest = .part2 → w.Inside) ∧
    ((∀ w ∈ (Traced.quiet r >>= fun r => finishEdit disp r.2 op n r.1).events, w.Inside) ↔
      ¬∃ l s', r = .ok (some l, s')) := by
  obtain ⟨k, rfl⟩ := Int.eq_ofNat_of_zero_le hn
  have hk : k ≤ 257 := by omega
  cases r with
  | error e =>
    rw [Traced.events_bind_error (Traced.result_quiet _)]
    exact ⟨nofun, iff_of_true nofun (by rintro ⟨l, s', h⟩; cases h)⟩
  | ok r =>
    obtain ⟨part4, s⟩ := r
    rw [Traced.events_bind_ok (Traced.result_quiet _), Traced.events_quiet, List.nil_append,
      finishEdit_events]
    cases part4 with
    | none => exact ⟨nofun, iff_of_true nofun (by rintro ⟨l, s', h⟩; cases h)⟩
    | some l =>
      obtain ⟨w, hw, hout⟩ := undoRecord_outside hop hk l
      exact ⟨undoRecord_notes hk op l, iff_of_false (fun h => hout (h w hw)) fun h =>
        h ⟨l, s, rfl⟩⟩

theorem ins_inside_iff (disp : Display) (M : Mem False s d) (h0 : d.lines ≠ []) (hx : 0 ∉ extra)
    (hlen : extra.length < 256) (hst : LineReady s.stdin) (past : Option Line) (n : ℤ) :
    (∀ w ∈ (exec past disp (.ins n extra) s).events, w.dest = .part2 → w.Inside) ∧
    ((∀ w ∈ (exec past disp (.ins n extra) s).events, w.Inside) ↔
      ¬s.Records past (.ins n extra)) := by
  have hk := M.length_le
  obtain ⟨ps, qs, H⟩ := M.rep
  have hg := H.getLineNumber_eq
  rw [exec, Traced.events_bind_pure, comIns, State.Records, M.lines_eq]
  by_cases hn : n ≤ 0 ∨ n > d.lines.length + 1
  · rw [if_pos (by omega)]
    exact ⟨nofun, iff_of_true nofun (by omega)⟩
  · rw [if_neg (by omega)]
    obtain ⟨h₂, hall⟩ := edit_inside_iff disp "ins-" (by simp) (show 0 ≤ n by omega)
      (by omega) (insText past s n extra true)
    refine ⟨h₂, hall.trans (not_congr ?_)⟩
    rw [insText_record_iff M h0 hx hlen hst past (by omega) (by omega)]
    exact ⟨fun h => ⟨by omega, by omega, h⟩, fun h => h.2.2⟩

theorem mod_inside_iff (disp : Display) (M : Mem False s d) (hx : 0 ∉ extra)
    (hlen : extra.length < 256) (hst : LineReady s.stdin) (past : Option Line) (n : ℤ) :
    (∀ w ∈ (exec past disp (.mod n extra) s).events, w.dest = .part2 → w.Inside) ∧
    ((∀ w ∈ (exec past disp (.mod n extra) s).events, w.Inside) ↔
      ¬s.Records past (.mod n extra)) := by
  have hk := M.length_le
  obtain ⟨ps, qs, H⟩ := M.rep
  have hg := H.getLineNumber_eq
  rw [exec, comMod, State.Records, M.lines_eq]
  by_cases hn : n ≤ 0 ∨ n > d.lines.length
  · rw [if_pos (by omega)]
    exact ⟨nofun, iff_of_true nofun (by omega)⟩
  · rw [if_neg (by omega)]
    obtain ⟨h₂, hall⟩ := edit_inside_iff disp "mod-" (by simp) (show 0 ≤ n by omega)
      (by omega) (modText s n extra true)
    refine ⟨h₂, hall.trans (not_congr ?_)⟩
    exact iff_of_true (modText_records M hx hlen hst (by omega) (by omega)) ⟨by omega, by omega⟩

end Stores

variable {disp : Display} {s : State} {c : Command}

/-- Loading a file stores only inside the lines.  At every prompt of a run a command stores inside
`part2`, and it stores inside all its arrays if and only if it makes no undo record. -/
theorem stores_inside_iff (h : Reachable disp s) (hc : c.Fits) (past : Option Line) :
    (∀ b reads, (Stores.openFile b reads).result = openFile b reads ∧
      ∀ w ∈ (Stores.openFile b reads).events, w.Inside) ∧
    ((∀ extra, c = .ins 257 extra → s.lines.length ≤ 255) →
      (Stores.exec past disp c s).result = exec disp c s) ∧
    (∀ w ∈ (Stores.exec past disp c s.goOn).events, w.dest = .part2 → w.Inside) ∧
    ((∀ w ∈ (Stores.exec past disp c s.goOn).events, w.Inside) ↔ ¬s.Records past c) := by
  have hheld := h.atPrompt.held
  refine ⟨fun b reads => ⟨Stores.openFile_result b reads, Stores.openFile_notes b reads⟩,
    fun hpast => Stores.exec_result past disp fun extra he => ?_, ?_⟩
  · have := hpast extra he
    rw [hheld.getLineNumber_eq]
    omega
  obtain ⟨d₀, M₀, h0⟩ := hheld
  obtain ⟨d, M, hl, -, hst, -⟩ := M₀.goOn
  have hrec : s.Records past c ↔ s.goOn.Records past c := by
    have hlines : s.lines = s.goOn.lines := by rw [M₀.lines_eq, M.lines_eq, hl]
    unfold State.Records
    rw [hlines]
  rw [hrec]
  cases c with
  | ins n extra => exact Stores.ins_inside_iff disp M (hl ▸ h0) hc.1 hc.2 hst past n
  | mod n extra => exact Stores.mod_inside_iff disp M hc.1 hc.2 hst past n
  | del | «show» | hide | rb | help | save | exit | demo | init | disp | normaldisp | invalid =>
    exact ⟨nofun, iff_of_true nofun id⟩

/-- `ins b` behind an empty last line. -/
theorem stores_inside_empty_line : ∃ s, Reachable noDisplay s ∧ s.lines = [bytesOf "a", []] ∧
    ∀ past, ∀ w ∈ (Stores.exec past noDisplay (.ins 3 (bytesOf "b")) s.goOn).events,
      w.Inside := by
  obtain ⟨s, hm, A⟩ := main_shown noDisplay (.session (some (bytesOf "a\n")) [])
    [bytesOf "a\n"] rfl (shows_noDisplay _)
  have hl : s.lines = [bytesOf "a", []] := A.lines_eq
  have hR : Reachable noDisplay s := .of_main (by rintro _ ⟨⟩; decide) hm
  refine ⟨s, hR, hl, fun past => (stores_inside_iff hR (by decide) past).2.2.2.2 ?_⟩
  rintro ⟨-, -, h⟩
  rw [hl] at h
  exact h ⟨by decide, by decide, fun h => absurd h (by decide)⟩

/-- `mod-1 b` on a file of one line: `part1` has 5 bytes, and the terminator after the number goes
behind them. -/
theorem stores_outside_mod : ∃ s, Reachable noDisplay s ∧ s.lines = [bytesOf "a"] ∧
    ⟨.part1 "mod-", 5⟩ ∈ (Stores.exec none noDisplay (.mod 1 (bytesOf "b")) s).events ∧
    ¬Store.Inside ⟨.part1 "mod-", 5⟩ := by
  obtain ⟨s, hm, hw⟩ := exists_of_returns
    (r := main noDisplay (.session (some (bytesOf "a")) []) [bytesOf "a"])
    (p := fun s => ⟨.part1 "mod-", 5⟩ ∈
      (Stores.exec none noDisplay (.mod 1 (bytesOf "b")) s).events)
    (by decide +kernel)
  have A : Abs False s _ := .of_main False.elim hm
  refine ⟨s, .of_main (by rintro _ ⟨⟩; decide) hm, A.lines_eq.trans (by decide),
    of_decide_eq_true hw, by decide⟩

end Xv6Editor
