import Mathlib.Logic.Relation
import Xv6Editor.Editor.Commands

/-!
# The main program

`main` of `editor.c`: the loader, which reads the file into lines, and the command loop.

* `loadReads` is the loader on the successive results of `read`.  `Cuts bs reads` says that the
  reads deliver the bytes `bs`, at least one and at most `BUF_SIZE` at a time; the loader's
  results below hold for every such cutting.
* `parse` is the chain of tests on the input line, `exec` what the chosen branch does, and
  `promptStep` one round of the command loop, from prompt to prompt.
* `Reachable` are the states at the prompt of a run that started by opening a file.
-/

namespace Xv6Editor

/-! ### The loader -/

/-- `strcat_n(text[line_number], buf+next, i-next)`. -/
def appendSegment (s : State) (seg : Line) : Except Halt State := do
  let p ← s.slotPtr s.lineNumber.toNat
  let _ ← s.strAt p 0
  s.putBytes p (strcatN (← s.block p).bytes seg seg.length)

/-- `line_number++; text[line_number] = malloc(MAX_LINE_LENGTH); memset(...);`. -/
def newLine (s : State) : Except Halt State := do
  let s := { s with lineNumber := s.lineNumber + 1 }
  let (p, s) := s.malloc
  let s ← s.setSlot s.lineNumber.toNat (some p)
  s.memsetSlot s.lineNumber.toNat

/-- The inner loop on one buffer: `seg` holds the bytes from `next` up to `i`, the list those
from `i` on.  The result says whether the text is full. -/
def loadBuf : Line → List UInt8 → State → Except Halt (Bool × State)
  | seg, [], s => do .ok (false, ← appendSegment s seg)
  | seg, c :: cs, s =>
    if c = '\n'.toUInt8 then do
      let s ← appendSegment s seg
      if s.lineNumber ≥ 256 - 1 then .ok (true, s)
      else
        let s ← newLine s
        if cs = [] then .ok (false, s) else loadBuf [] cs s
    else loadBuf (seg ++ [c]) cs s

/-- `while ((len = read(fd, buf, BUF_SIZE)) > 0)`. -/
def loadReads : List (List UInt8) → State → Except Halt State
  | [], s => .ok s
  | buf :: reads, s => do
    let (isFull, s) ← loadBuf [] buf s
    if isFull then .ok s else loadReads reads s

/-- The reads deliver exactly the bytes `bs`. -/
def Cuts (bs : List UInt8) (reads : List (List UInt8)) : Prop :=
  reads.flatten = bs ∧ ∀ r ∈ reads, 1 ≤ r.length ∧ r.length ≤ 256

instance (bs : List UInt8) (reads : List (List UInt8)) : Decidable (Cuts bs reads) :=
  inferInstanceAs (Decidable (_ ∧ _))

/-! ### The command loop -/

/-- The commands. -/
inductive Command
  | ins (n : ℤ) (extra : Line)
  | mod (n : ℤ) (extra : Line)
  | del (n : ℤ)
  | show
  | hide
  | rb
  | help
  | save
  | exit
  | demo
  | init
  | disp
  | normaldisp
  | invalid
  deriving DecidableEq

/-- The commands without an argument. -/
def parseWord (word : Line) : Command :=
  if word = bytesOf "show" then .show
  else if word = bytesOf "hide" then .hide
  else if word = bytesOf "rb" then .rb
  else if word = bytesOf "help" then .help
  else if word = bytesOf "save" ∨ word = bytesOf "CTRL+S\n" then .save
  else if word = bytesOf "exit" then .exit
  else if word = bytesOf "demo" then .demo
  else if word = bytesOf "init" then .init
  else if word = bytesOf "disp" then .disp
  else if word = bytesOf "normaldisp" then .normaldisp
  else .invalid

/-- The tests of the command loop on the input buffer; `lineNumber` is the cached line number. -/
def parse (lineNumber : ℤ) (input : List UInt8) : Command :=
  let extra := cstr (input.drop (findSpace 8 input))
  let arg := cstr (input.drop 4)
  let c := input.getD 3 0
  if hasOp "ins" input then
    if c = '-'.toUInt8 ∧ stringtonumber arg ≥ 0 then .ins (stringtonumber arg) extra
    else if c = ' '.toUInt8 ∨ c = 0 then .ins (lineNumber + 1 + 1) extra
    else .invalid
  else if hasOp "mod" input then
    if c = '-'.toUInt8 ∧ stringtonumber arg ≥ 0 then .mod (atoi arg) extra
    else if c = ' '.toUInt8 ∨ c = 0 then .mod (lineNumber + 1) extra
    else .invalid
  else if hasOp "del" input then
    if c = '-'.toUInt8 ∧ stringtonumber arg ≥ 0 then .del (stringtonumber arg)
    else if c = 0 then .del (lineNumber + 1)
    else .invalid
  else parseWord (cstr input)

variable (disp : Display)

/-- The branch of the command loop for one command. -/
def exec (c : Command) (s : State) : Except Halt State :=
  match c with
  | .ins n extra => do .ok (updateLineNumber (← comIns disp s n extra true))
  | .mod n extra => comMod disp s n extra true
  | .del n => do .ok (updateLineNumber (← comDel disp s n true))
  | .show =>
    .ok ({ s with autoShow := true }.print
      (notice "enable show current contents after text changed."))
  | .hide =>
    .ok ({ s with autoShow := false }.print
      (notice "disable show current contents after text changed."))
  | .rb => comRollback disp s
  | .help => .ok (s.print [.helpText])
  | .save => comSave s
  | .exit => comExit s
  | .demo => .ok (s.print [.demoText])
  | .init => comInitFile disp s
  | .disp => do .ok (s.print (← disp s))
  | .normaldisp => do .ok (s.print (← showText s))
  | .invalid => .ok (s.print (alarm "invalid command."))

/-- The buffer `input` of `main` after `gets` and `input[len-1] = '\0'`. -/
def inputBuffer (got : List UInt8) : List UInt8 :=
  (pad 256 got).set ((cstr (pad 256 got)).length - 1) 0

/-- One round of the command loop. -/
def promptStep (s : State) : Except Halt State :=
  let s := s.print [.lit ">>> ", .sgr [1, 33], .sgr [0]]
  let (got, rest) := gets s.stdin
  if cstr (pad 256 got) = [] then fail (.inputIndex (-1))
  else exec disp (parse s.lineNumber (inputBuffer got)) { s with stdin := rest }

theorem promptStep_eq (s : State) :
    promptStep disp s =
      if cstr (pad 256 (gets s.stdin).1) = [] then fail (.inputIndex (-1))
      else exec disp (parse s.lineNumber (inputBuffer (gets s.stdin).1))
        { s with
          stdin := (gets s.stdin).2
          console := s.console ++ [.lit ">>> ", .sgr [1, 33], .sgr [0]] } := rfl

/-- The string in the input buffer before its last byte is cut off. -/
theorem cstr_pad_gets (st : List UInt8) : cstr (pad 256 (gets st).1) = cstr (gets st).1 :=
  cstr_pad_of_lt (Nat.lt_succ_of_le (length_gets_le st))

/-! ### Runs -/

/-- What a run starts from. -/
structure Boot where
  /-- What `malloc` finds in the blocks it hands out. -/
  junk : ℕ → Block 256
  /-- The string at address 0. -/
  page0 : Line
  /-- Standard input. -/
  stdin : List UInt8
  /-- The bytes of the file, if it exists. -/
  file : Option (List UInt8)
  /-- How the kernel reacts to the system calls. -/
  answers : List Answer

/-- The globals of `editor.c` and an empty array `text`. -/
def Boot.state (b : Boot) : State where
  text := Vector.replicate 256 none
  heap := Heap.empty b.junk
  changed := false
  autoShow := true
  lineNumber := 0
  commandSet := Vector.replicate 20 none
  upperBound := -1
  stdin := b.stdin
  console := []
  disk := ⟨b.file, b.answers⟩
  page0 := b.page0
  nullReads := []

/-- `text[0] = malloc(MAX_LINE_LENGTH); memset(text[0], 0, MAX_LINE_LENGTH);`. -/
def firstLine (s : State) : Except Halt State := do
  let (p, s) := s.malloc
  let s ← s.setSlot 0 (some p)
  s.memsetSlot 0

/-- Open the file and, if there is none, create it. -/
def openFile (b : Boot) (reads : List (List UInt8)) : Except Halt State := do
  let s ← firstLine b.state
  match b.file with
  | some _ => loadReads reads s
  | none => comCreateNewFile s

/-- `main` up to the first prompt: an existing file is shown. -/
def main (b : Boot) (reads : List (List UInt8)) : Except Halt State := do
  let s ← openFile b reads
  if b.file.isSome then autoDisplay disp s else .ok s

/-- `s` is at the first prompt of a run. -/
def Initial (s : State) : Prop :=
  ∃ b reads, (∀ bs, b.file = some bs → Cuts bs reads) ∧ main disp b reads = .ok s

/-- One round of the command loop that returns to the prompt. -/
def Step (s s' : State) : Prop := promptStep disp s = .ok s'

/-- `s` is at a prompt of a run. -/
def Reachable (s : State) : Prop :=
  ∃ s₀, Initial disp s₀ ∧ Relation.ReflTransGen (Step disp) s₀ s

end Xv6Editor
