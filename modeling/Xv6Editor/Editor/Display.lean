import Xv6Editor.Editor.State

/-!
# Showing the text

`show_text` and `show_text_syntax_highlighting` of `editor.c`.  The highlighter walks over a line
with an index `mark`; at every position the token branches of the source are tried in their order
(`rules`), and the first one that applies prints some characters and moves `mark`.

* `col` reads one column of a line buffer.  Column 256 does not exist, and the look-ahead of the
  keyword tests is evaluated with C's short circuit (`matchAt`), so exactly the columns the
  source reads are read here.
* A quote that is not closed sends `mark` back to 0 with nothing else changed: the loop then
  repeats for ever.  Every other branch moves forward, so a loop that has not ended after 257
  rounds does not end, which is what `scanLoop` reports as `Stuck.hung`.
-/

namespace Xv6Editor

/-- The progress of the scanning loop. -/
structure Scan where
  /-- The next column. -/
  mark : ℕ
  /-- A `//` was seen. -/
  annotation : Bool

/-- `text[j][c]`. -/
def col (b : Block 256) (c : ℕ) : Except Stuck UInt8 :=
  match b.bytes[c]? with
  | some x => .ok x
  | none => .error (.column c)

/-- `text[j][mark] == w[0] && text[j][mark+1] == w[1] && ...`. -/
def matchAt (b : Block 256) (mark : ℕ) : Line → Except Stuck Bool
  | [] => .ok true
  | c :: w => do if (← col b mark) = c then matchAt b (mark + 1) w else .ok false

/-- `printf(1, "\e[...m%c\e[0m", c)`. -/
def paint (codes : List ℕ) (c : UInt8) : List Piece := [.sgr codes, .chr c, .sgr [0]]

/-- The kinds of token branches. -/
inductive Rule
  /-- A decimal digit. -/
  | digit
  /-- A word, tested when `mark + look` is inside the line. -/
  | word (look : ℕ) (w : String) (codes : List ℕ)
  /-- One of `{}[]()`. -/
  | bracket
  /-- A slash; the source means two of them but tests the first one twice. -/
  | slash
  /-- A quote, and everything up to the next one. -/
  | quote (q : Char)

/-- The token branches, in the order of the source. -/
def rules : List Rule :=
  [.digit,
   .word 5 "printf" [1, 36],
   .word 2 "int" [1, 34],
   .word 4 "float" [1, 34],
   .word 5 "double" [1, 34],
   .word 3 "char" [1, 34],
   .word 1 "if" [1, 35],
   .word 3 "else" [1, 35],
   .word 5 "else if" [1, 35],
   .word 2 "for" [1, 35],
   .word 4 "while" [1, 35],
   .word 3 "long" [1, 34],
   .bracket,
   .word 5 "static" [1, 34],
   .word 4 "const" [1, 34],
   .word 5 "memset" [1, 36],
   .slash,
   .word 3 "NULL" [1, 35],
   .quote '"',
   .quote '\'',
   .word 5 "continue" [1, 35],
   .word 5 "return" [1, 34]]

/-- The branch for one kind of token at column `mark`: what it prints and where it goes, if it
applies. -/
def Rule.apply (b : Block 256) (mark : ℕ) : Rule → Except Stuck (Option (List Piece × Scan))
  | .digit => do
    let c ← col b mark
    if '0'.toUInt8 ≤ c ∧ c ≤ '9'.toUInt8 then .ok (some (paint [0, 33] c, ⟨mark + 1, false⟩))
    else .ok none
  | .word look w codes => do
    if mark + look < 256 then
      if ← matchAt b mark (bytesOf w) then
        .ok (some ((bytesOf w).flatMap (paint codes), ⟨mark + (bytesOf w).length, false⟩))
      else .ok none
    else .ok none
  | .bracket => do
    let c ← col b mark
    if c ∈ ['\x7b', '\x7d', '[', ']', '(', ')'].map Char.toUInt8 then
      .ok (some (paint [1, 35] c, ⟨mark + 1, false⟩))
    else .ok none
  | .slash => do
    if mark + 1 < 256 then
      let c ← col b mark
      if c = '/'.toUInt8 then
        let c' ← col b (mark + 1)
        .ok (some (paint [1, 32] c ++ paint [1, 32] c', ⟨mark + 2, true⟩))
      else .ok none
    else .ok none
  | .quote q => do
    let c ← col b mark
    if c = q.toUInt8 then
      match (b.bytes.drop (mark + 1)).findIdx? (· = q.toUInt8) with
      | some i =>
        .ok (some (((b.bytes.drop mark).take (i + 2)).flatMap (paint [1, 33]),
          ⟨mark + 1 + i + 1, false⟩))
      -- the search ends with `end == -1`
      | none => .ok (some ([], ⟨0, false⟩))
    else .ok none

/-- The chain of token branches, with the plain character at its end. -/
def firstRule (b : Block 256) (mark : ℕ) : List Rule → Except Stuck (List Piece × Scan)
  | [] => do .ok ([.chr (← col b mark), .sgr [0]], ⟨mark + 1, false⟩)
  | r :: rs => do
    match ← r.apply b mark with
    | some x => .ok x
    | none => firstRule b mark rs

/-- The body of the scanning loop. -/
def scanStep (b : Block 256) (st : Scan) : Except Stuck (List Piece × Scan) :=
  if st.annotation then do
    .ok (paint [1, 32] (← col b st.mark), ⟨st.mark + 1, true⟩)
  else firstRule b st.mark rules

/-- `while (mark < MAX_LINE_LENGTH && text[j][mark] != NULL)`, for at most `fuel` rounds. -/
def scanLoop (b : Block 256) : ℕ → Scan → Except Stuck (List Piece)
  | 0, _ => .error .hung
  | fuel + 1, st => do
    if st.mark < 256 then
      if (← col b st.mark) = 0 then .ok []
      else
        let (out, st) ← scanStep b st
        .ok (out ++ (← scanLoop b fuel st))
    else .ok []

/-- `text[j][pos] == '/' && text[j][pos+1] == '/'` at the first column that is not a space. -/
def commentLine (b : Block 256) : Except Stuck Bool :=
  matchAt b ((b.bytes.findIdx? (· ≠ ' '.toUInt8)).getD 0) (bytesOf "//")

/-- What the highlighter prints for one line, after the line number. -/
def highlightLine (b : Block 256) : Except Stuck (List Piece) := do
  if b.str = bytesOf "\n" then .ok [.lit "\n"]
  else if ← commentLine b then .ok [.sgr [1, 32], .str b.str, .lit "\n", .sgr [0]]
  else .ok ((← scanLoop b 257 ⟨0, false⟩) ++ [.lit "\n"])

/-- `printf(1, "\e[1;30m%d%d%d\e[0m\e[0;32m|\e[0m", ...)`. -/
def lineHead (j : ℕ) : List Piece :=
  [.sgr [1, 30], .num ((j + 1) / 100), .num ((j + 1) % 100 / 10), .num ((j + 1) % 10), .sgr [0],
   .sgr [0, 32], .lit "|", .sgr [0]]

/-- The heading above the text. -/
def contentsHead : List Piece :=
  [.lit ">>> ", .sgr [1], .sgr [45, 33], .lit "the contents of the file are:", .sgr [0],
   .lit "\n", .lit "\n"]

/-- One round of the loop of `show_text_syntax_highlighting`: `out` was printed before. -/
def highlightRound (s : State) (j : ℕ) (p : Ptr) (out : List Piece) :
    Except Halt (List Piece) := do
  -- the string is read by `strcmp` before anything else
  let _ ← s.strAt p 0
  let line ← (highlightLine (← s.block p)).mapError (Halt.stuck · s)
  .ok (out ++ lineHead j ++ line)

/-- `show_text_syntax_highlighting(text)`: what is printed. -/
def showTextSyntaxHighlighting (s : State) : Except Halt (List Piece) := do
  let body ← scanSlots (highlightRound s) s.text.toList 0 []
  .ok (contentsHead ++ body ++ [.lit "\n"])

/-- One round of the loop of `show_text`. -/
def showRound (s : State) (j : ℕ) (p : Ptr) (out : List Piece) : Except Halt (List Piece) := do
  let line ← s.strAt p 0
  .ok (out ++ lineHead j ++
    if line = bytesOf "\n" then [.lit "\n"] else [.str line, .lit "\n"])

/-- `show_text(text)`: what is printed. -/
def showText (s : State) : Except Halt (List Piece) := do
  let body ← scanSlots (showRound s) s.text.toList 0 []
  .ok (contentsHead ++ body ++ [.lit "\n"])

/-- A routine that shows the text.  The commands are written for any such routine: the editor is
the instance `showTextSyntaxHighlighting`, and `noDisplay` leaves the display out. -/
abbrev Display := State → Except Halt (List Piece)

/-- Show nothing. -/
def noDisplay : Display := fun _ => .ok []

/-- `if (auto_show == 1) show_text_syntax_highlighting(text);`. -/
def autoDisplay (disp : Display) (s : State) : Except Halt State :=
  if s.autoShow then do .ok (s.print (← disp s)) else .ok s

@[simp] theorem autoDisplay_noDisplay (s : State) : autoDisplay noDisplay s = .ok s := by
  have h : s.print [] = s := by rw [State.print, List.append_nil]
  rw [autoDisplay]
  split_ifs
  · exact congrArg Except.ok h
  · rfl

end Xv6Editor
