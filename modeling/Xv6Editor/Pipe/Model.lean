import Mathlib.Data.List.Basic
import Mathlib.Logic.Function.Basic

/-!
# `pipe.c`: pipes

A pipe is a ring buffer of 512 bytes with the counters `nread` and `nwrite`.  A writer waits while
the buffer is full and a reader while it is empty, each giving up the lock and waking the other
side before; so a call is a sequence of runs that end when it returns or goes to sleep
(`pipewrite`, `piperead`).

The system is a pipe and any number of processes in calls.  A process that sleeps waits on the
address of one of the counters, readers on `&nread` and writers on `&nwrite`, and `wakeup` lets all
that wait on an address run again.
-/

namespace Xv6Editor

namespace Pipes

/-- `PIPESIZE` -/
def pipeSize : UInt32 := 512

/-- `struct pipe` -/
structure Pipe where
  /-- The bytes. -/
  data : ℕ → UInt8
  /-- The number of bytes read. -/
  nread : UInt32
  /-- The number of bytes written. -/
  nwrite : UInt32
  /-- The read end is open. -/
  readopen : Bool
  /-- The write end is open. -/
  writeopen : Bool

/-- A call that has not returned, and what it waits for. -/
inductive Wait
  /-- `piperead` for `n` bytes. -/
  | read (n : ℕ)
  /-- `pipewrite`, with the bytes that are left to write. -/
  | write (bs : List UInt8)
deriving Repr, DecidableEq

/-- How a run of a call ends. -/
inductive Outcome
  /-- The call returns a number of bytes, or `-1`. -/
  | returned (ret : Option ℕ)
  /-- It sleeps. -/
  | asleep (w : Wait)
deriving Repr, DecidableEq

/-- What a run of a call does. -/
structure Result where
  /-- The bytes it moves, into the pipe or out of it. -/
  moved : List UInt8
  /-- How it ends. -/
  outcome : Outcome
  /-- It calls `wakeup` for the other side. -/
  wakes : Bool
  /-- The pipe after it. -/
  pipe : Pipe

/-- The loop of `pipewrite` for the last bytes `bs` of a call for `n` bytes. -/
def pipewrite (killed : Bool) (n : ℕ) : List UInt8 → Pipe → Result
  | [], p => ⟨[], .returned (some n), true, p⟩
  | b :: bs, p =>
    if p.nwrite = p.nread + pipeSize then
      if p.readopen = false ∨ killed = true then ⟨[], .returned none, false, p⟩
      else ⟨[], .asleep (.write (b :: bs)), true, p⟩
    else
      let p := { p with
        data := Function.update p.data (p.nwrite % pipeSize).toNat b, nwrite := p.nwrite + 1 }
      let r := pipewrite killed n bs p
      { r with moved := b :: r.moved }

/-- The copying loop of `piperead`. -/
def copyLoop : ℕ → Pipe → List UInt8 × Pipe
  | 0, p => ([], p)
  | n + 1, p =>
    if p.nread = p.nwrite then ([], p)
    else
      let r := copyLoop n { p with nread := p.nread + 1 }
      (p.data (p.nread % pipeSize).toNat :: r.1, r.2)

/-- `piperead` for `n` bytes. -/
def piperead (killed : Bool) (n : ℕ) (p : Pipe) : Result :=
  if p.nread = p.nwrite ∧ p.writeopen = true then
    if killed then ⟨[], .returned none, false, p⟩ else ⟨[], .asleep (.read n), false, p⟩
  else
    let r := copyLoop n p
    ⟨r.1, .returned (some r.1.length), true, r.2⟩

/-! ### Processes -/

/-- A process in a call. -/
structure Call where
  /-- What the call has still to do. -/
  wait : Wait
  /-- The number of bytes it was made for. -/
  n : ℕ
  /-- It can run. -/
  awake : Bool
deriving Repr, DecidableEq

/-- A pipe and the processes that use it. -/
structure Sys where
  /-- The pipe. -/
  pipe : Pipe
  /-- The call each process is in, if it is in one. -/
  calls : ℕ → Option Call

/-- What happens next. -/
inductive Event
  /-- Process `pid` calls `piperead` for `n` bytes. -/
  | read (pid n : ℕ)
  /-- Process `pid` calls `pipewrite` for the bytes `bs`. -/
  | write (pid : ℕ) (bs : List UInt8)
  /-- Process `pid` is scheduled; it may have been killed. -/
  | run (pid : ℕ) (killed : Bool)
  /-- `pipeclose` of one end. -/
  | close (writable : Bool)
deriving Repr, DecidableEq

/-- What a run of a call does that is seen outside. -/
structure Output where
  /-- The call is a write. -/
  isWrite : Bool
  /-- The bytes moved. -/
  moved : List UInt8
  /-- How the run ends. -/
  outcome : Outcome
deriving Repr, DecidableEq

/-- The call is a write. -/
def Wait.isWrite : Wait → Bool
  | .read _ => false
  | .write _ => true

/-- `wakeup` for the readers, or for the writers. -/
def wakeup (writers : Bool) (calls : ℕ → Option Call) : ℕ → Option Call := fun pid =>
  (calls pid).map fun c => if c.wait.isWrite = writers then { c with awake := true } else c

/-- A run of a call. -/
def Wait.result (w : Wait) (killed : Bool) (n : ℕ) (p : Pipe) : Result :=
  match w with
  | .read m => piperead killed m p
  | .write bs => pipewrite killed n bs p

/-- The call after a run, if it has not returned. -/
def Outcome.call (o : Outcome) (n : ℕ) : Option Call :=
  match o with
  | .returned _ => none
  | .asleep w => some ⟨w, n, false⟩

/-- A process in a call runs. -/
def runCall (pid : ℕ) (killed : Bool) (c : Call) (s : Sys) : Sys × Option Output :=
  let r := c.wait.result killed c.n s.pipe
  let calls := if r.wakes then wakeup (!c.wait.isWrite) s.calls else s.calls
  (⟨r.pipe, Function.update calls pid (r.outcome.call c.n)⟩,
    some ⟨c.wait.isWrite, r.moved, r.outcome⟩)

/-- A process that is in no call makes one. -/
def startCall (pid : ℕ) (w : Wait) (n : ℕ) (s : Sys) : Sys :=
  match s.calls pid with
  | none => { s with calls := Function.update s.calls pid (some ⟨w, n, true⟩) }
  | some _ => s

/-- A process that can run is scheduled. -/
def schedule (pid : ℕ) (killed : Bool) (s : Sys) : Sys × Option Output :=
  match s.calls pid with
  | some c => if c.awake then runCall pid killed c s else (s, none)
  | none => (s, none)

/-- `pipeclose`; the memory is freed when both ends are closed, which nobody sees. -/
def pipeclose (writable : Bool) (s : Sys) : Sys :=
  if writable then ⟨{ s.pipe with writeopen := false }, wakeup false s.calls⟩
  else ⟨{ s.pipe with readopen := false }, wakeup true s.calls⟩

/-- One event. -/
def step : Event → Sys → Sys × Option Output
  | .read pid n, s => (startCall pid (.read n) n s, none)
  | .write pid bs, s => (startCall pid (.write bs) bs.length s, none)
  | .run pid killed, s => schedule pid killed s
  | .close writable, s => (pipeclose writable s, none)

/-- Any sequence of events: the system after them, and what the calls did. -/
def run : List Event → Sys → Sys × List Output
  | [], s => (s, [])
  | ev :: evs, s =>
    ((run evs (step ev s).1).1, (step ev s).2.toList ++ (run evs (step ev s).1).2)

/-- The bytes that the writers put in, or that the readers took out, in the order in which they
did. -/
def moved (write : Bool) (os : List Output) : List UInt8 :=
  os.flatMap fun o => if o.isWrite = write then o.moved else []

/-- `pipealloc`: a new pipe. -/
def pipealloc (data : ℕ → UInt8) : Sys := ⟨⟨data, 0, 0, true, true⟩, fun _ => none⟩

end Pipes

end Xv6Editor
