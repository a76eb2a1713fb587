import Xv6Editor.Editor.Number
import Xv6Editor.Editor.Display

/-!
# The commands

The `com_*` functions of `editor.c`, with `strcat_n`, `record_command` and xv6's `gets`.  They
take the display routine as a parameter (`Display`).

A pointer to a string that is only read (`extra`, `command`, `content`) is passed as the string.
The `flag` of `com_ins`, `com_mod` and `com_del` is false when `com_rollback` calls them.
-/

namespace Xv6Editor

/-! ### Messages -/

/-- `printf(1, ">>> \033[1m\e[41;33m...\e[0m\n")`. -/
def alarm (t : String) : List Piece :=
  [.lit ">>> ", .sgr [1], .sgr [41, 33], .lit t, .sgr [0], .lit "\n"]

/-- `printf(1, ">>> \e[1;33m...\n\e[0m")`. -/
def notice (t : String) : List Piece := [.lit ">>> ", .sgr [1, 33], .lit t, .lit "\n", .sgr [0]]

/-- The prompt for the content of a line. -/
def contentPrompt : List Piece := [.lit "... ", .sgr [1, 35], .lit "input content:", .sgr [0]]

/-- The question of `com_exit`. -/
def saveQuestion : List Piece :=
  [.lit ">>> ", .sgr [1, 33], .lit "save the file?", .sgr [0], .lit " ", .sgr [1], .sgr [46, 33],
   .lit "y", .sgr [0], .lit "/", .sgr [1], .sgr [41, 33], .lit "n", .sgr [0], .lit "\n"]

/-! ### Reading a line -/

/-- `gets(buf, max)` reading from `inp`: the bytes stored, and what is left.  The terminator
that `gets` adds is not part of the bytes. -/
def getsFrom : ℕ → List UInt8 → List UInt8 × List UInt8
  | 0, inp => ([], inp)
  | _ + 1, [] => ([], [])
  | n + 1, c :: inp =>
    if c = '\n'.toUInt8 ∨ c = '\r'.toUInt8 then ([c], inp)
    else (c :: (getsFrom n inp).1, (getsFrom n inp).2)

/-- `gets(input, MAX_LINE_LENGTH)`. -/
def gets (inp : List UInt8) : List UInt8 × List UInt8 := getsFrom 255 inp

theorem length_getsFrom_le : ∀ (k : ℕ) (inp : List UInt8), (getsFrom k inp).1.length ≤ k
  | 0, inp => by simp [getsFrom]
  | k + 1, [] => by simp [getsFrom]
  | k + 1, b :: inp => by
    rw [getsFrom]
    split_ifs
    · simp
    · simpa using length_getsFrom_le k inp

theorem getsFrom_append : ∀ (k : ℕ) (inp : List UInt8),
    (getsFrom k inp).1 ++ (getsFrom k inp).2 = inp
  | 0, inp => rfl
  | _ + 1, [] => rfl
  | k + 1, b :: inp => by
    rw [getsFrom]
    split_ifs
    · rfl
    · simpa using getsFrom_append k inp

/-- A newline ends the line. -/
theorem newline_notMem_getsFrom : ∀ (k : ℕ) (inp : List UInt8),
    '\n'.toUInt8 ∉ (getsFrom k inp).1.dropLast
  | 0, inp => by simp [getsFrom]
  | k + 1, [] => by simp [getsFrom]
  | k + 1, b :: inp => by
    rw [getsFrom]
    split_ifs with hb
    · simp
    · rw [not_or] at hb
      intro h
      have := newline_notMem_getsFrom k inp
      cases hg : (getsFrom k inp).1 with
      | nil => simp [hg] at h
      | cons a as =>
        rw [hg, List.dropLast_cons_cons] at h
        rcases List.mem_cons.1 h with h | h
        · exact hb.1 h.symm
        · exact this (hg ▸ h)

theorem length_gets_le (inp : List UInt8) : (gets inp).1.length ≤ 255 := length_getsFrom_le 255 inp

theorem gets_append (inp : List UInt8) : (gets inp).1 ++ (gets inp).2 = inp :=
  getsFrom_append 255 inp

theorem gets_suffix (inp : List UInt8) : (gets inp).2 <:+ inp := ⟨_, gets_append inp⟩

/-- The string that is left of a line has no newline. -/
theorem newline_notMem_gets (inp : List UInt8) :
    '\n'.toUInt8 ∉ (cstr (gets inp).1).dropLast := by
  intro h
  refine newline_notMem_getsFrom 255 inp ?_
  obtain ⟨t, ht⟩ : cstr (gets inp).1 <+: (gets inp).1 := List.takeWhile_prefix _
  change _ ∈ (gets inp).1.dropLast
  rw [← ht]
  by_cases h0 : t = []
  · rwa [h0, List.append_nil]
  · rw [List.dropLast_append_of_ne_nil h0]
    exact List.mem_append_left _ (List.dropLast_subset _ h)

/-- `gets(input, MAX_LINE_LENGTH); input[strlen(input)-1] = '\0';` on a local buffer: the string
left in it. -/
def getLine (s : State) : Except Halt (Line × State) :=
  let (got, rest) := gets s.stdin
  if cstr got = [] then fail (.inputIndex (-1))
  else .ok ((cstr got).dropLast, { s with stdin := rest })

theorem getLine_eq (s : State) :
    getLine s = if cstr (gets s.stdin).1 = [] then fail (.inputIndex (-1))
      else .ok ((cstr (gets s.stdin).1).dropLast, { s with stdin := (gets s.stdin).2 }) := rfl

/-- The content of `com_ins` and `com_mod`: `extra`, or a line from the user if that is empty. -/
def readContent (s : State) (extra : Line) : Except Halt (Line × State) :=
  if extra = [] then getLine (s.print contentPrompt) else .ok (extra, s)

/-! ### The undo log -/

/-- `strcat_n(dest, src, len)` on the region behind `dest`. -/
def strcatN (dest src : List UInt8) (len : ℕ) : List UInt8 :=
  if len = 0 then dest
  else
    let pos := (cstr dest).length
    if len + pos ≥ 256 then dest else poke dest pos (src.take len ++ [0])

/-- The undo record for line `n` with content `part4`, built by three calls of `strcat_n` into an
array that starts as `op`. -/
def undoRecord (op : String) (n : ℤ) (part4 : Line) : Line :=
  let part1 := bytesOf op ++ [0]
  let part2 := number2string n
  let part1 := strcatN part1 part2 part2.length
  let part3 := bytesOf " "
  let part1 := strcatN part1 part3 part3.length
  let part1 := strcatN part1 part4 part4.length
  cstr part1

/-- The loop of `record_command` that moves the records down, for `i` from `20 - k` to 19. -/
def shiftCommands : ℕ → State → Except Halt State
  | 0, s => .ok s
  | k + 1, s => do
    let i : ℤ := 19 - k
    let src ← s.strAt (← s.commandPtr i) 0
    let s ← s.strcpy (← s.commandPtr (i - 1)) src
    shiftCommands k s

/-- `record_command(command)`. -/
def recordCommand (s : State) (command : Line) : Except Halt State :=
  if s.upperBound + 1 < 20 then do
    let (p, s) := s.malloc
    let s ← s.setCommandPtr (s.upperBound + 1) p
    let s ← s.strcpy p command
    .ok { s with upperBound := s.upperBound + 1 }
  else do
    let s ← shiftCommands 19 s
    let s ← s.strcpy (← s.commandPtr s.upperBound) command
    .ok { s with upperBound := 19 }

/-! ### Editing -/

variable (disp : Display)

/-- The body of the loop of `com_ins` that moves the lines up, for `i ≥ 1`. -/
def insShiftBody (s : State) (i : ℕ) : Except Halt State := do
  match ← s.slot (i - 1) with
  | none => .ok s
  | some q =>
    let s ← match ← s.slot i with
      | none => let (p, s) := s.malloc; s.setSlot i (some p)
      | some _ => .ok s
    let s ← s.memsetSlot i
    s.strcpySlot i (← s.strAt q 0)

/-- `for (i = MAX_LINE_NUMBER - 1; i > n-1; i--)` from `i` on, where `m` is `n-1`. -/
def insShift (m : ℕ) : ℕ → State → Except Halt State
  | 0, s => .ok s
  | i + 1, s => if i + 1 > m then do insShift m i (← insShiftBody s (i + 1)) else .ok s

/-- The end of `com_ins`: the content goes into `text[m]`, where `m` is `n-1`, and the command is
recorded. -/
def insPlace (s : State) (m : ℕ) (n : ℤ) (input part4 : Line) (flag : Bool) :
    Except Halt State := do
  let s ← s.memsetSlot m
  let s ← s.strcpySlot m input
  let s := { s with changed := true }
  let s ← if flag then recordCommand s (undoRecord "ins-" n part4) else .ok s
  autoDisplay disp s

/-- `com_ins(text, n, extra, flag)`. -/
def comIns (s : State) (n : ℤ) (extra : Line) (flag : Bool) : Except Halt State := do
  if n ≤ 0 ∨ n > getLineNumber s.text + 1 + 1 then
    .ok (s.print (alarm "invalid line number"))
  else
    let m := (n - 1).toNat
    let (input, s) ← readContent s extra
    let (part4, s) ← if flag then s.slotStr m else .ok ([], s)
    let s ← insShift m 255 s
    match ← s.slot m with
    | some _ => insPlace disp s m n input part4 flag
    | none =>
      let (p, s) := s.malloc
      let s ← s.setSlot m (some p)
      if m = 0 then fail (.textIndex (-1))
      else
        let (prev, s) ← s.slotStr (m - 1)
        if prev = [] then
          -- the last line is empty: the content goes there, and nothing is recorded
          let s ← s.memsetSlot m
          let s ← s.strcpySlot (m - 1) input
          autoDisplay disp { s with changed := true }
        else insPlace disp s m n input part4 flag

/-- `com_mod(text, n, extra, flag)`. -/
def comMod (s : State) (n : ℤ) (extra : Line) (flag : Bool) : Except Halt State := do
  if n ≤ 0 ∨ n > getLineNumber s.text + 1 then
    .ok (s.print (alarm "invalid line number"))
  else
    let m := (n - 1).toNat
    let (input, s) ← readContent s extra
    let (part4, s) ← if flag then s.slotStr m else .ok ([], s)
    let s ← s.memsetSlot m
    let s ← s.strcpySlot m input
    let s := { s with changed := true }
    let s ← if flag then recordCommand s (undoRecord "mod-" n part4) else .ok s
    autoDisplay disp s

/-- `for (; text[i+1] != NULL; i++)`, the loop of `com_del` that moves the lines down; the final
`i`.  It ends before the array does or runs out of it, so 256 rounds are enough. -/
def delShift : ℕ → ℕ → State → Except Halt (ℕ × State)
  | 0, i, _ => fail (.textIndex (i + 1))
  | fuel + 1, i, s => do
    match ← s.slot (i + 1) with
    | none => .ok (i, s)
    | some q =>
      let s ← s.strcpySlot i (← s.strAt q 0)
      let s ← s.memsetSlot (i + 1)
      delShift fuel (i + 1) s

/-- `if (i != 0) { free(text[i]); text[i] = 0; }`, where `com_del` gives the last line back. -/
def releaseSlot (s : State) (i : ℕ) : Except Halt State :=
  if i ≠ 0 then do
    let s ← s.free (← s.slotPtr i)
    s.setSlot i none
  else .ok s

/-- `com_del(text, n, flag)`.  The record it would make is disabled in the source (`if(0)`). -/
def comDel (s : State) (n : ℤ) (flag : Bool) : Except Halt State := do
  if n ≤ 0 ∨ n > getLineNumber s.text + 1 then
    .ok (s.print (alarm "invalid line number"))
  else
    let m := (n - 1).toNat
    let (_, s) ← if flag then s.slotStr m else .ok ([], s)
    let s ← s.memsetSlot m
    let (i, s) ← delShift 256 m s
    let s ← releaseSlot s i
    autoDisplay disp { s with changed := true }

/-- `for (; j < bound; j++) if (input[j] == ' ')`: the position after the first space, or the
last byte of the buffer. -/
def findSpace (bound : ℕ) (input : List UInt8) : ℕ :=
  match (input.take bound).findIdx? (· = ' '.toUInt8) with
  | some j => j + 1
  | none => 255

/-- `input[0] == ... && input[1] == ... && input[2] == ...`. -/
def hasOp (op : String) (input : List UInt8) : Bool := input.take 3 = bytesOf op

/-- `line_number = get_line_number(text);`. -/
def updateLineNumber (s : State) : State := { s with lineNumber := getLineNumber s.text }

/-- `com_rollback(text, 1)`. -/
def comRollback (s : State) : Except Halt State :=
  if s.upperBound < 0 then .ok (s.print (alarm "couldn't rollback"))
  else do
    let (p, s) := s.malloc
    let s ← s.strcpy p (← s.strAt (← s.commandPtr s.upperBound) 0)
    let s := { s with upperBound := s.upperBound - 1 }
    let input := (← s.block p).bytes
    let pos := findSpace 10 input
    if hasOp "ins" input then
      let line := stringtonumber (← s.strAt p 4)
      .ok (updateLineNumber (← comDel disp s line false))
    else if hasOp "mod" input then
      let line := stringtonumber (← s.strAt p 4)
      let content ← s.strAt p pos
      .ok (updateLineNumber (← comMod disp s line content false))
    else if hasOp "del" input then
      let line := stringtonumber (← s.strAt p 4)
      let content ← s.strAt p pos
      .ok (updateLineNumber (← comIns disp s line content false))
    else .ok s

/-- The lines `com_init_file` puts in place. -/
def initText : List Line :=
  ["// Create a NULL-terminated string by reading the provided file",
   "static char* readShaderSource(const char* shaderFile)",
   "\x7b",
   "\tint flag = 24;",
   "\tdouble ways = 100.43;",
   "\tif ( fp == NULL ) \x7b",
   "\t\treturn NULL;",
   "\t\x7d",
   "\tfseek(fp, 0L, SEEK_END);\t//search something",
   "\tlong size = ftell(fp);",
   "\tfseek(fp, 0L, SEEK_SET);",
   "\tchar* buf = new char[size + 1];",
   "\tmemset(buf, 0, size + 1);\t//Initiate every bit of buf as 0",
   "\tfread(buf, 1, size, fp);",
   "\tbuf[size] = '\\0';",
   "\tfclose(fp);\t\t\t// close 'fp' stream.",
   "\treturn buf;",
   "\twhile (flag != 0)\x7b",
   "\t\tways = ways + ways * 12;",
   "\t\x7d",
   "\tfor (int a = 10; a >= 0; a--)\x7b",
   "\t\tfloat tmp_value = 20.5;",
   "\t\tprintf(\"the real value of variable tmp_value is:%f\", tmp_value);",
   "\t\tcontinue;",
   "\t\x7d",
   "\x7d",
   "// demo | made by Shaun Fong"].map bytesOf

/-- Every line of the demo text is a string that fits into a block, without newlines. -/
theorem initText_spec :
    ∀ l ∈ initText, (0 ∉ l ∧ l.length < 256) ∧ '\n'.toUInt8 ∉ l := by
  decide +kernel

theorem length_initText : initText.length = 27 := rfl

/-- The loop of `com_init_file` from slot `i` on: new blocks, which are not cleared. -/
def initShift : ℕ → List Line → State → Except Halt State
  | _, [], s => .ok s
  | i, l :: ls, s => do
    let (p, s) := s.malloc
    let s ← s.setSlot i (some p)
    let s ← s.strcpySlot i l
    initShift (i + 1) ls s

/-- `com_init_file(text, path)`. -/
def comInitFile (s : State) : Except Halt State := do
  let s := updateLineNumber (← initShift 0 initText s)
  let s := s.print (← disp s)
  .ok { s with changed := true }

/-! ### Files -/

/-- `com_create_new_file(text, path)`. -/
def comCreateNewFile (s : State) : Except Halt State :=
  match s.openCreate with
  | (true, s) => .ok s
  | (false, s) =>
    .error (.exited (s.print [.lit ">>> ", .sgr [1, 31], .lit "create file failed", .sgr [0],
      .lit "\n"]))

/-- The loop of `com_save`: a newline and the next line, at the offset of the open file. -/
def saveBody (p : Ptr) (a : ℕ × State) : Except Halt (ℕ × State) := do
  let (off, s) := a.2.write a.1 (bytesOf "\n")
  .ok (s.write off (← s.strAt p 0))

/-- `com_save(text, path)`. -/
def comSave (s : State) : Except Halt State :=
  match s.unlink.openCreate with
  | (false, s) => .error (.exited (s.print (alarm "save failed, file can't open:")))
  | (true, s) => do
    match ← s.slot 0 with
    | none => .ok s
    | some p =>
      let a := s.write 0 (← s.strAt p 0)
      let (_, s) ← scanSlots (fun _ p a => saveBody p a) (s.text.toList.drop 1) 1 a
      let s := s.print [.lit ">>> ", .sgr [1, 32], .lit "saved successfully", .sgr [0], .lit "\n"]
      .ok { s with changed := false }

/-- `while (changed == 1)`, the question of `com_exit`.  Every round reads at least one byte, so
one round for each byte of the input and one more are enough. -/
def askSave : ℕ → State → Except Halt State
  | 0, _ => fail (.inputIndex (-1))
  | fuel + 1, s => do
    if s.changed then
      let (input, s) ← getLine (s.print saveQuestion)
      if input = bytesOf "y" then askSave fuel (← comSave s)
      else if input = bytesOf "n" then .ok s
      else askSave fuel (s.print [.lit ">>> ", .sgr [1, 31], .lit "wrong answer?", .sgr [0],
        .lit "\n"])
    else .ok s

/-- `com_exit(text, path)`: it does not return. -/
def comExit (s : State) : Except Halt State := do
  let s ← askSave (s.stdin.length + 1) s
  let s ← scanSlots (fun i p (s : State) => do (← s.free p).setSlot i none) s.text.toList 0 s
  .error (.exited s)

end Xv6Editor
