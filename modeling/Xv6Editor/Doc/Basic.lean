import Xv6Editor.Doc.Record
import Xv6Editor.Editor.Main
import Xv6Editor.Undo.Bounded

/-!
# The editor on a list of lines

What the commands are for, without pointers and blocks: a `Doc` is the text as a list of lines
with the undo log as a list of records, and `Doc.exec` says what each command makes of it.
`Rep/Commands.lean` connects it to the code.

* `insLines`, `delLines`, `initLines` : the effect of `ins`, `del` and `init` on the lines.
* `Doc.rollback` : one step of undo.
* `Doc.step` : one round of the command loop.  `none` means that the round does not come back to
  the prompt: the input is at its end where a line is read, the file cannot be created by `save`,
  or the command is `exit`.
-/

namespace Xv6Editor

/-- The text and the undo log, with what is left to read and the file. -/
structure Doc where
  /-- The lines of the text. -/
  lines : List Line
  /-- The undo records, oldest first. -/
  log : List Line
  /-- Something was edited since the last save. -/
  changed : Bool
  /-- What is left on standard input. -/
  stdin : List UInt8
  /-- The file. -/
  disk : Disk
  /-- The string that the record of a line past the end of the text holds. -/
  page0 : Line
  deriving DecidableEq

/-! ### Commands -/

/-- The content on the command line. -/
def Command.extra : Command → Line
  | .ins _ extra | .mod _ extra => extra
  | _ => []

theorem extra_ite {p : Prop} [Decidable p] {a b : Command} {Q : Line → Prop} (ha : Q a.extra)
    (hb : Q b.extra) : Q (if p then a else b).extra := by
  split <;> assumption

/-- A command has no content, or the content after the first space. -/
theorem parse_extra (ln : ℤ) (input : List UInt8) :
    (parse ln input).extra = [] ∨
      (parse ln input).extra = cstr (input.drop (findSpace 8 input)) := by
  unfold parse parseWord
  repeat' apply extra_ite (Q := fun e => e = [] ∨ e = cstr (input.drop (findSpace 8 input)))
  all_goals first | exact .inl rfl | exact .inr rfl

/-! ### Lines -/

/-- The new content goes before the last line if that is empty and the line number is past it. -/
def insPos (ls : List Line) (m : ℕ) : ℕ :=
  if m = ls.length ∧ ls.getLast? = some [] then m - 1 else m

/-- The lines after `ins` puts `c` at position `m`. -/
def insLines (ls : List Line) (m : ℕ) (c : Line) : List Line := ls.insertIdx (insPos ls m) c

/-- The lines after `del` of the line at position `m`.  There is always one line. -/
def delLines (ls : List Line) (m : ℕ) : List Line :=
  if ls.length ≤ 1 then [[]] else ls.eraseIdx m

/-- The lines after `init`. -/
def initLines (ls : List Line) : List Line := initText ++ ls.drop initText.length

/-- The bytes of a file with these lines. -/
def joinLines (ls : List Line) : List UInt8 := [('\n').toUInt8].intercalate ls

/-- The `write` calls of `com_save`: the first line, then a newline and a line each. -/
def saveChunks : List Line → List (List UInt8)
  | [] => []
  | l :: ls => l :: ls.flatMap fun l => [bytesOf "\n", l]

/-- A sequence of `write` calls from offset `off` on; the final offset. -/
def Disk.writes : List (List UInt8) → ℕ → Disk → ℕ × Disk
  | [], off, k => (off, k)
  | d :: ds, off, k => writes ds (k.write off d).1 (k.write off d).2

namespace Doc

variable (d : Doc)

/-- A line from the user. -/
def getLine : Option (Line × Doc) :=
  if cstr (gets d.stdin).1 = [] then none
  else some ((cstr (gets d.stdin).1).dropLast, { d with stdin := (gets d.stdin).2 })

/-- The content of `ins` and `mod`. -/
def readContent (extra : Line) : Option (Line × Doc) :=
  if extra = [] then d.getLine else some (extra, d)

/-- The last line is empty and the line number is past it: then `ins` records nothing. -/
def Unrecorded (m : ℕ) : Prop := m = d.lines.length ∧ d.lines.getLast? = some []

instance (m : ℕ) : Decidable (d.Unrecorded m) := inferInstanceAs (Decidable (_ ∧ _))

/-- Put `c` at position `m`. -/
def insert (m : ℕ) (c : Line) : Doc :=
  { d with
    lines := insLines d.lines m c
    changed := true
    log := if d.Unrecorded m then d.log
      else Undo.push 20 d.log (undoRecord "ins-" (m + 1 : ℕ) (d.lines[m]?.getD d.page0)) }

/-- `ins` at line `n`. -/
def ins (n : ℤ) (extra : Line) : Option Doc :=
  if n ≤ 0 ∨ n > d.lines.length + 1 then some d
  else (d.readContent extra).map fun r => r.2.insert (n - 1).toNat r.1

/-- `ins` at line `n`, called by the command loop (`flag`) or to undo, which keeps the log. -/
def insFlag (n : ℤ) (extra : Line) (flag : Bool) : Option Doc :=
  (d.ins n extra).map fun d' => { d' with log := if flag then d'.log else d.log }

theorem insFlag_true (n : ℤ) (extra : Line) : d.insFlag n extra true = d.ins n extra := by
  simp [insFlag]

/-- Put `c` into the line at position `m`. -/
def replace (m : ℕ) (c : Line) (flag : Bool) : Doc :=
  { d with
    lines := d.lines.set m c
    changed := true
    log := if flag then
        Undo.push 20 d.log (undoRecord "mod-" (m + 1 : ℕ) (d.lines[m]?.getD d.page0))
      else d.log }

/-- `mod` of line `n`; a `mod` made by `rb` is not recorded. -/
def mod (n : ℤ) (extra : Line) (flag : Bool) : Option Doc :=
  if n ≤ 0 ∨ n > d.lines.length then some d
  else (d.readContent extra).map fun r => r.2.replace (n - 1).toNat r.1 flag

/-- `del` of line `n`. -/
def del (n : ℤ) : Doc :=
  if n ≤ 0 ∨ n > d.lines.length then d
  else { d with lines := delLines d.lines (n - 1).toNat, changed := true }

/-- `rb`: undo from the newest record. -/
def rollback : Option Doc :=
  match d.log.getLast? with
  | none => some d
  | some r =>
    match decode r with
    | .remove n => some ({ d with log := d.log.dropLast }.del n)
    | .rewrite n c => { d with log := d.log.dropLast }.mod n c false
    | .nothing => some { d with log := d.log.dropLast }

/-- `init`. -/
def init : Doc := { d with lines := initLines d.lines, changed := true }

/-- `save`. -/
def save : Option Doc :=
  if d.disk.unlink.openCreate.1 then
    some { d with
      disk := (Disk.writes (saveChunks d.lines) 0 d.disk.unlink.openCreate.2).2
      changed := false }
  else none

/-- The questions of `exit`: the document at the end of the dialog. -/
def askSave : ℕ → Doc → Option Doc
  | 0, _ => none
  | fuel + 1, d =>
    if d.changed then
      d.getLine.bind fun r =>
        if r.1 = bytesOf "y" then r.2.save.bind (askSave fuel)
        else if r.1 = bytesOf "n" then some r.2
        else askSave fuel r.2
    else some d

/-- One command. -/
def exec : Command → Option Doc
  | .ins n extra => d.ins n extra
  | .mod n extra => d.mod n extra true
  | .del n => some (d.del n)
  | .rb => d.rollback
  | .save => d.save
  | .exit => none
  | .init => some d.init
  | .show | .hide | .help | .demo | .disp | .normaldisp | .invalid => some d

/-- The command that is read at the prompt. -/
def command : Command := parse (d.lines.length - 1) (inputBuffer (gets d.stdin).1)

/-- One round of the command loop. -/
def step : Option Doc :=
  if cstr (pad 256 (gets d.stdin).1) = [] then none
  else { d with stdin := (gets d.stdin).2 }.exec d.command

end Doc

end Xv6Editor
