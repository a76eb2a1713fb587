import Xv6Editor.CMem.Bytes
import Xv6Editor.CMem.Heap

/-!
# The editor's memory

The globals of `editor.c`, the array `text` of `main`, and the part of the outside world the
editor talks to: what is left to read on standard input, what was printed, the file it edits.
`MAX_LINE_NUMBER`, `MAX_LINE_LENGTH` and `BUF_SIZE` are all 256, `MAX_ROLLBAKC_STEP` is 20.

C leaves out-of-range accesses undefined.  Here every function returns in `Except Halt`, and such
an access ends the run with a `Fault`: a run that goes on has made none.  Two liberties of the
source are not faults:

* reading a string through a NULL slot of `text`.  On xv6 address 0 is mapped (it holds the
  program text), so the read gives some string, `page0`; every such read is noted in `nullReads`;
* the scratch arrays of `com_ins` and `com_mod` (`part1`, `part4`, `command`), which are kept as
  values and so are as large as what is put into them.

The kernel may refuse a system call: `answers` says how it reacts to the calls to come, and
calls beyond the list are served.
-/

namespace Xv6Editor

/-- The bytes of a line, without its terminator. -/
abbrev Line := List UInt8

/-- The bytes of a string constant. -/
def bytesOf (s : String) : Line := s.toList.map Char.toUInt8

/-- One piece of the output of `printf`. -/
inductive Piece
  /-- Text of the format string. -/
  | lit (s : String)
  /-- A colour escape sequence `\e[...m` of the format string. -/
  | sgr (codes : List ℕ)
  /-- The argument of a `%c`. -/
  | chr (c : UInt8)
  /-- The argument of a `%s`. -/
  | str (s : Line)
  /-- The argument of a `%d`. -/
  | num (n : ℕ)
  /-- The fixed text printed by `com_help`. -/
  | helpText
  /-- The fixed text printed by `com_display_color_demo`. -/
  | demoText
  deriving DecidableEq

/-- How the kernel reacts to a system call. -/
inductive Answer
  /-- It does what it is asked for. -/
  | done
  /-- It returns `-1`, after `m` bytes of a `write` got through; an `open` that had created the
  file before it failed has `m ≠ 0`. -/
  | fails (m : ℕ)
  deriving DecidableEq

/-- The file the editor works on, and how the kernel reacts to the calls to come. -/
structure Disk where
  /-- The bytes of the file at `path`, if there is one. -/
  file : Option (List UInt8)
  /-- How the kernel reacts to the next system calls. -/
  answers : List Answer
  deriving DecidableEq

namespace Disk

/-- The next answer of the kernel. -/
def answer (k : Disk) : Answer × Disk :=
  match k.answers with
  | [] => (.done, k)
  | a :: as => (a, { k with answers := as })

/-- `unlink(path)`. -/
def unlink (k : Disk) : Disk :=
  match k.answer with
  | (.done, k) => { k with file := none }
  | (.fails _, k) => k

/-- `open(path, O_WRONLY|O_CREATE)`, which does not truncate; whether it succeeds. -/
def openCreate (k : Disk) : Bool × Disk :=
  match k.answer with
  | (.done, k) => (true, { k with file := some (k.file.getD []) })
  | (.fails 0, k) => (false, k)
  | (.fails _, k) => (false, { k with file := some (k.file.getD []) })

/-- The largest file: `MAXFILE * BSIZE` bytes. -/
def maxFileSize : ℕ := (12 + 128) * 512

/-- `write(fd, d, n)` on the open file at offset `off`; the new offset.  The kernel refuses a
write that would make the file larger than `maxFileSize`. -/
def write (k : Disk) (off : ℕ) (d : List UInt8) : ℕ × Disk :=
  let got := match k.answer.1 with
    | .done => if off + d.length ≤ maxFileSize then d else []
    | .fails m => if off + d.length ≤ maxFileSize then d.take m else []
  (off + got.length, { k.answer.2 with file := k.file.map fun c => poke c off got })

end Disk

/-- The state of the editor process and its surroundings. -/
structure State where
  /-- The lines of the file, up to the first NULL. -/
  text : Vector (Option Ptr) 256
  /-- The blocks from `malloc(MAX_LINE_LENGTH)`. -/
  heap : Heap (Block 256)
  /-- Something was edited since the last save. -/
  changed : Bool
  /-- Show the text after every edit. -/
  autoShow : Bool
  /-- The largest index of a line, as cached by the command loop. -/
  lineNumber : ℤ
  /-- The undo records. -/
  commandSet : Vector (Option Ptr) 20
  /-- The index of the newest undo record, `-1` if there is none. -/
  upperBound : ℤ
  /-- What is left on standard input. -/
  stdin : List UInt8
  /-- What was printed. -/
  console : List Piece
  /-- The file it edits. -/
  disk : Disk
  /-- The string at address 0. -/
  page0 : Line
  /-- The slots of `text` that were NULL when their string was read. -/
  nullReads : List ℕ

/-- Accesses that C leaves undefined. -/
inductive Fault
  /-- `text[i]` outside the array. -/
  | textIndex (i : ℤ)
  /-- `input[i]` outside an input buffer. -/
  | inputIndex (i : ℤ)
  /-- `command_set[i]` outside the array, or the string of a NULL slot of it. -/
  | commandSlot (i : ℤ)
  /-- A write through a NULL slot of `text`. -/
  | nullWrite (i : ℕ)
  /-- An access to a block that is not in use. -/
  | badPointer (p : Ptr)
  /-- A string that runs past the end of its block. -/
  | unterminated (p : Ptr)
  /-- A write past the end of a block. -/
  | overrun (p : Ptr)
  deriving DecidableEq

/-- Ways in which the display of a line does not come to its end. -/
inductive Stuck
  /-- The scanning loop repeats for ever. -/
  | hung
  /-- It reads column `c`, outside the line buffer. -/
  | column (c : ℕ)
  deriving DecidableEq

/-- Why a computation ends other than by returning. -/
inductive Halt
  /-- `exit()` was called. -/
  | exited (s : State)
  /-- The display does not come to an end. -/
  | stuck (w : Stuck) (s : State)
  /-- Undefined behaviour. -/
  | fault (f : Fault)

/-- End the run with a fault. -/
def fail {α : Type*} (f : Fault) : Except Halt α := .error (.fault f)

namespace State

/-- `printf` to the console. -/
def print (s : State) (out : List Piece) : State := { s with console := s.console ++ out }

/-- `malloc(MAX_LINE_LENGTH)`. -/
def malloc (s : State) : Ptr × State := (s.heap.malloc.1, { s with heap := s.heap.malloc.2 })

/-- `free(p)`. -/
def free (s : State) (p : Ptr) : Except Halt State :=
  match s.heap.free p with
  | some h => .ok { s with heap := h }
  | none => fail (.badPointer p)

/-- The block behind a pointer. -/
def block (s : State) (p : Ptr) : Except Halt (Block 256) :=
  match s.heap.get p with
  | some b => .ok b
  | none => fail (.badPointer p)

/-- The string that starts at offset `off` of a block. -/
def strAt (s : State) (p : Ptr) (off : ℕ) : Except Halt Line := do
  let b ← s.block p
  if 0 ∈ b.bytes.drop off then .ok (cstr (b.bytes.drop off)) else fail (.unterminated p)

/-- Replace the bytes of a block; more bytes than it has is an overrun. -/
def putBytes (s : State) (p : Ptr) (bs : List UInt8) : Except Halt State :=
  match Block.ofBytes 256 bs with
  | none => fail (.overrun p)
  | some b =>
    match s.heap.store p b with
    | some h => .ok { s with heap := h }
    | none => fail (.badPointer p)

/-- `memset(p, 0, MAX_LINE_LENGTH)`. -/
def memset (s : State) (p : Ptr) : Except Halt State := s.putBytes p (Block.zero 256).bytes

/-- `strcpy(p, src)`. -/
def strcpy (s : State) (p : Ptr) (src : Line) : Except Halt State := do
  let b ← s.block p
  s.putBytes p (Xv6Editor.strcpy b.bytes src)

/-- `text[i]`. -/
def slot (s : State) (i : ℕ) : Except Halt (Option Ptr) :=
  match s.text[i]? with
  | some o => .ok o
  | none => fail (.textIndex i)

/-- `text[i] = o`. -/
def setSlot (s : State) (i : ℕ) (o : Option Ptr) : Except Halt State :=
  if h : i < 256 then .ok { s with text := s.text.set i o } else fail (.textIndex i)

/-- The string behind `text[i]`. -/
def slotStr (s : State) (i : ℕ) : Except Halt (Line × State) := do
  match ← s.slot i with
  | some p => .ok (← s.strAt p 0, s)
  | none => .ok (s.page0, { s with nullReads := s.nullReads ++ [i] })

/-- `text[i]`, about to be written through. -/
def slotPtr (s : State) (i : ℕ) : Except Halt Ptr := do
  match ← s.slot i with
  | some p => .ok p
  | none => fail (.nullWrite i)

/-- `memset(text[i], 0, MAX_LINE_LENGTH)`. -/
def memsetSlot (s : State) (i : ℕ) : Except Halt State := do s.memset (← s.slotPtr i)

/-- `strcpy(text[i], src)`. -/
def strcpySlot (s : State) (i : ℕ) (src : Line) : Except Halt State := do
  s.strcpy (← s.slotPtr i) src

/-- `command_set[i]`, about to be read or written through. -/
def commandPtr (s : State) (i : ℤ) : Except Halt Ptr :=
  if i < 0 then fail (.commandSlot i)
  else
    match s.commandSet[i.toNat]? with
    | some (some p) => .ok p
    | _ => fail (.commandSlot i)

/-- `command_set[i] = p`. -/
def setCommandPtr (s : State) (i : ℤ) (p : Ptr) : Except Halt State :=
  if h : 0 ≤ i ∧ i.toNat < 20 then
    .ok { s with commandSet := s.commandSet.set i.toNat (some p) h.2 }
  else fail (.commandSlot i)

/-- `unlink(path)`. -/
def unlink (s : State) : State := { s with disk := s.disk.unlink }

/-- `open(path, O_WRONLY|O_CREATE)`; whether it succeeds. -/
def openCreate (s : State) : Bool × State :=
  (s.disk.openCreate.1, { s with disk := s.disk.openCreate.2 })

/-- `write(fd, d, n)` at offset `off`; the new offset. -/
def write (s : State) (off : ℕ) (d : List UInt8) : ℕ × State :=
  ((s.disk.write off d).1, { s with disk := (s.disk.write off d).2 })

end State

/-- `get_line_number(text)`. -/
def getLineNumber (text : Vector (Option Ptr) 256) : ℤ :=
  (text.toList.findIdx Option.isNone : ℤ) - 1

/-- `for (; text[j] != NULL; j++)` over the slots from `j` on: the loop body gets the index and
the pointer.  Past the last slot the test itself is out of range. -/
def scanSlots {σ : Type} (body : ℕ → Ptr → σ → Except Halt σ) :
    List (Option Ptr) → ℕ → σ → Except Halt σ
  | [], j, _ => fail (.textIndex j)
  | none :: _, _, a => .ok a
  | some p :: slots, j, a => do scanSlots body slots (j + 1) (← body j p a)

/-- The non-NULL slots before the first NULL. -/
def State.lineSlots (s : State) : List Ptr := (s.text.toList.takeWhile Option.isSome).filterMap id

/-- The text as a list of lines. -/
def State.lines (s : State) : List Line :=
  s.lineSlots.map fun p => ((s.heap.get p).map Block.str).getD []

/-- The undo log, oldest record first. -/
def State.log (s : State) : List Line :=
  ((s.commandSet.toList.take (s.upperBound + 1).toNat).filterMap id).map fun p =>
    ((s.heap.get p).map Block.str).getD []

end Xv6Editor
