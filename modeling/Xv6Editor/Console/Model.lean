import Mathlib.Data.List.Basic
import Mathlib.Logic.Function.Basic

/-!
# `console.c`: input from the keyboard

What is typed goes into a ring buffer of 128 characters with three counters: `r`, up to which it
has been read, `w`, up to which it may be read, and `e`, up to which it has been typed.  The
keyboard interrupt (`consoleintr`) edits the part between `w` and `e`, the line being typed, and
moves `w` when the line is complete.  `read` (`consoleread`) takes characters from `r` and waits
when there are none.

Both hold `input.lock`, so they do not interleave, except that `consoleread` gives the lock up
while it sleeps.  A call of `consoleread` is therefore a sequence of runs of `readLoop`, each of
which ends when the call returns or goes to sleep, and anything can happen between two of them.
The last part of this module is the system that comes out: interrupts and any number of processes
that read.  It does not depend on how the characters are kept (`Device`).

The echo of the characters and the two keys that list processes only write to the screen and are
not modelled.
-/

namespace Xv6Editor

namespace Console

/-- `INPUT_BUF` -/
def inputBuf : UInt32 := 128

/-- `C(x)` -/
def ctrl (x : UInt8) : UInt8 := x - 64

/-- `C('P')` -/
def ctrlP : UInt8 := ctrl 80
/-- `C('R')` -/
def ctrlR : UInt8 := ctrl 82
/-- `C('U')` -/
def ctrlU : UInt8 := ctrl 85
/-- `C('H')` -/
def ctrlH : UInt8 := ctrl 72
/-- `C('D')` -/
def ctrlD : UInt8 := ctrl 68
/-- The delete key. -/
def del : UInt8 := 127
/-- The newline. -/
def nl : UInt8 := 10
/-- The return key. -/
def cr : UInt8 := 13

/-- `input` -/
structure Input where
  /-- The characters. -/
  buf : ℕ → UInt8
  /-- Read index. -/
  r : UInt32
  /-- Write index. -/
  w : UInt32
  /-- Edit index. -/
  e : UInt32

/-- The loop that kills a line; it has at most as many rounds as there are characters. -/
def killLine : ℕ → Input → Input
  | 0, s => s
  | n + 1, s =>
    if s.e ≠ s.w ∧ s.buf ((s.e - 1) % inputBuf).toNat ≠ nl then
      killLine n { s with e := s.e - 1 }
    else s

/-- A key as it is stored: the return key gives a newline. -/
def cooked (c : UInt8) : UInt8 := if c = cr then nl else c

/-- The body of the loop of `consoleintr`; the flag says whether it wakes up the readers. -/
def key (c : UInt8) (s : Input) : Input × Bool :=
  if c = ctrlP ∨ c = ctrlR then (s, false)
  else if c = ctrlU then (killLine (s.e - s.w).toNat s, false)
  else if c = ctrlH ∨ c = del then
    (if s.e ≠ s.w then { s with e := s.e - 1 } else s, false)
  else if c ≠ 0 ∧ s.e - s.r < inputBuf then
    let s := { s with
      buf := Function.update s.buf (s.e % inputBuf).toNat (cooked c), e := s.e + 1 }
    if cooked c = nl ∨ cooked c = ctrlD ∨ s.e = s.r + inputBuf then ({ s with w := s.e }, true)
    else (s, false)
  else (s, false)

/-- How a run of a call ends. -/
inductive Outcome
  /-- The call returns a number of bytes, or `-1`. -/
  | returned (ret : Option ℕ)
  /-- It sleeps until there is input; `n` bytes are still wanted. -/
  | asleep (n : ℕ)
deriving Repr, DecidableEq

/-- The loop of `consoleread(ip, dst, target)` when `n` bytes are still wanted, up to its end or
to the next `sleep`: the bytes it copies to `dst`, and how it ends. -/
def readLoop (killed : Bool) (target : ℕ) : ℕ → Input → List UInt8 × Outcome × Input
  | 0, s => ([], .returned (some target), s)
  | n + 1, s =>
    if s.r = s.w then
      if killed then ([], .returned none, s) else ([], .asleep (n + 1), s)
    else
      let c := s.buf (s.r % inputBuf).toNat
      let s := { s with r := s.r + 1 }
      if c = ctrlD then
        -- the character is kept for the next call if this one has something to return
        let s := if n + 1 < target then { s with r := s.r - 1 } else s
        ([], .returned (some (target - (n + 1))), s)
      else if c = nl then ([c], .returned (some (target - n)), s)
      else (c :: (readLoop killed target n s).1, (readLoop killed target n s).2)

/-! ### Interrupts and processes -/

/-- Something that takes keys and hands out characters. -/
structure Device (σ : Type*) where
  /-- A key; the flag says whether the readers are woken up. -/
  key : UInt8 → σ → σ × Bool
  /-- The loop of a call that may be killed, of a size, with a number of bytes still wanted. -/
  readLoop : Bool → ℕ → ℕ → σ → List UInt8 × Outcome × σ

/-- The console of the kernel. -/
def device : Device Input := ⟨key, readLoop⟩

/-- A call of `consoleread` that has not returned. -/
structure Call where
  /-- The number of bytes the caller asked for. -/
  target : ℕ
  /-- How many of them are still wanted. -/
  n : ℕ
  /-- It can run. -/
  awake : Bool
deriving Repr, DecidableEq

/-- The console and the processes that read from it. -/
structure Sys (σ : Type*) where
  /-- The console. -/
  dev : σ
  /-- The call each process is in, if it is in one. -/
  calls : ℕ → Option Call

/-- What happens next. -/
inductive Event
  /-- An interrupt, with the keys that `getc` returns. -/
  | intr (cs : List UInt8)
  /-- Process `pid` calls `read` for `n` bytes. -/
  | read (pid n : ℕ)
  /-- Process `pid` is scheduled; it may have been killed. -/
  | run (pid : ℕ) (killed : Bool)
deriving Repr, DecidableEq

/-- What a run of a call does that its caller sees. -/
structure Output where
  /-- The bytes copied to its buffer. -/
  copied : List UInt8
  /-- What the call returns, if it does. -/
  ret : Option (Option ℕ)
deriving Repr, DecidableEq

variable {σ : Type*} (D : Device σ)

/-- `wakeup(&input.r)` -/
def wakeup (calls : ℕ → Option Call) : ℕ → Option Call :=
  fun pid => (calls pid).map fun c => { c with awake := true }

/-- One key. -/
def keyStep (c : UInt8) (s : Sys σ) : Sys σ :=
  ⟨(D.key c s.dev).1, if (D.key c s.dev).2 then wakeup s.calls else s.calls⟩

/-- `consoleintr` with the keys `cs`. -/
def consoleintr (cs : List UInt8) (s : Sys σ) : Sys σ := cs.foldl (fun s c => keyStep D c s) s

/-- A process in a call runs until the call returns or sleeps. -/
def runCall (pid : ℕ) (killed : Bool) (c : Call) (s : Sys σ) : Sys σ × Option Output :=
  match D.readLoop killed c.target c.n s.dev with
  | (copied, .returned ret, dev) =>
    (⟨dev, Function.update s.calls pid none⟩, some ⟨copied, some ret⟩)
  | (copied, .asleep n, dev) =>
    (⟨dev, Function.update s.calls pid (some ⟨c.target, n, false⟩)⟩, some ⟨copied, none⟩)

/-- Process `pid` calls `consoleread`; one that is in a call makes no other. -/
def startCall (pid n : ℕ) (s : Sys σ) : Sys σ :=
  match s.calls pid with
  | none => { s with calls := Function.update s.calls pid (some ⟨n, n, true⟩) }
  | some _ => s

/-- Process `pid` is scheduled; one that sleeps or is in no call does nothing here. -/
def schedule (pid : ℕ) (killed : Bool) (s : Sys σ) : Sys σ × Option Output :=
  match s.calls pid with
  | some c => if c.awake then runCall D pid killed c s else (s, none)
  | none => (s, none)

/-- One event. -/
def step : Event → Sys σ → Sys σ × Option Output
  | .intr cs, s => (consoleintr D cs s, none)
  | .read pid n, s => (startCall pid n s, none)
  | .run pid killed, s => schedule D pid killed s

/-- Any sequence of events: the system after them, and what the processes saw. -/
def run : List Event → Sys σ → Sys σ × List Output
  | [], s => (s, [])
  | ev :: evs, s =>
    ((run evs (step D ev s).1).1, (step D ev s).2.toList ++ (run evs (step D ev s).1).2)

/-- All the bytes that were copied to a process, in the order in which they were. -/
def copied (os : List Output) : List UInt8 := os.flatMap Output.copied

/-- The keys in a sequence of events. -/
def keys : List Event → List UInt8
  | [] => []
  | .intr cs :: evs => cs ++ keys evs
  | _ :: evs => keys evs

/-- The console at boot; the buffer is never read before it is written. -/
def boot (buf : ℕ → UInt8) : Sys Input := ⟨⟨buf, 0, 0, 0⟩, fun _ => none⟩

end Console

end Xv6Editor
