import Xv6Editor.CMem.Bytes
import Xv6Editor.CMem.Heap
import Xv6Editor.CMem.Ensures
import Xv6Editor.CMem.Trace
import Xv6Editor.Undo.Bounded
import Xv6Editor.Editor.Number
import Xv6Editor.Editor.State
import Xv6Editor.Editor.Display
import Xv6Editor.Editor.Commands
import Xv6Editor.Editor.Phases
import Xv6Editor.Editor.Main
import Xv6Editor.Doc.Record
import Xv6Editor.Doc.Basic
import Xv6Editor.Doc.Load
import Xv6Editor.Doc.Invariant
import Xv6Editor.Rep.Basic
import Xv6Editor.Rep.Shift
import Xv6Editor.Rep.Log
import Xv6Editor.Rep.Edit
import Xv6Editor.Rep.Commands
import Xv6Editor.Rep.Loop
import Xv6Editor.Rep.Loader
import Xv6Editor.Display.Scan
import Xv6Editor.Display.Loop
import Xv6Editor.Display.Returns
import Xv6Editor.Display.Comments
import Xv6Editor.Display.Columns
import Xv6Editor.Runs.Frame
import Xv6Editor.Runs.Invariant
import Xv6Editor.Display.Text
import Xv6Editor.Edit.Insert
import Xv6Editor.Edit.Delete
import Xv6Editor.Runs.Capacity
import Xv6Editor.Runs.Full
import Xv6Editor.Runs.Held
import Xv6Editor.Runs.Log
import Xv6Editor.Runs.Undo
import Xv6Editor.Runs.UndoExact
import Xv6Editor.Files.Save
import Xv6Editor.Files.RoundTrip
import Xv6Editor.Files.Unsaved
import Xv6Editor.Input.Numerals
import Xv6Editor.Input.Lines
import Xv6Editor.Input.Numbered
import Xv6Editor.Input.End
import Xv6Editor.Runs.Slots
import Xv6Editor.Runs.Tails
import Xv6Editor.Edit.Stores
import Xv6Editor.CMem.Words
import Xv6Editor.CMem.Links
import Xv6Editor.CMem.Ring
import Xv6Editor.Umalloc.Model
import Xv6Editor.Umalloc.Layout
import Xv6Editor.Umalloc.Invariant
import Xv6Editor.Umalloc.Refine
import Xv6Editor.Console.Model
import Xv6Editor.Console.Queue
import Xv6Editor.Console.Runs
import Xv6Editor.Console.Gets
import Xv6Editor.Pipe.Model
import Xv6Editor.Pipe.Runs
import Xv6Editor.CMem.Prog
import Xv6Editor.CMem.Bits
import Xv6Editor.Fs.Cache
import Xv6Editor.Fs.Log
import Xv6Editor.Fs.Txn
import Xv6Editor.Fs.Blocks
import Xv6Editor.Fs.Crash
import Xv6Editor.Runs.Session
import Xv6Editor.CMem.Owns
import Xv6Editor.Fs.Bmap
import Xv6Editor.Fs.Content
import Xv6Editor.Fs.Files
import Xv6Editor.Fs.Inode
import Xv6Editor.Fs.Tree
import Xv6Editor.Fs.Filewrite
import Xv6Editor.Fs.Fileclose
import Xv6Editor.Fs.Ialloc
