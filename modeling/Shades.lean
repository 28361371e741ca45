import Shades.Bits
import Shades.Cells
import Shades.Memory
import Shades.Bitops
import Shades.Triev2.Tables
import Shades.Triev2.Code
import Shades.Triev2.Rep
import Shades.Triev2.Find
import Shades.Triev2.Insert
import Shades.Triev2.Delete
import Shades.Triev2.Versions
import Shades.Triev2.Quick
import Shades.Triev2.AtMost
import Shades.Triev2.Vacant
import Shades.Triev2.Shape
import Shades.Shtring.Code
import Shades.Shtring.Rep
import Shades.Shtring.Monkey
import Shades.Shtring.Text
import Shades.Shtring.Intern
import Shades.Shtring.InternRuns
import Shades.Shtring.CatCode
import Shades.Shtring.Build
import Shades.Shtring.Trim
import Shades.Shtring.Cat
import Shades.Shtring.CreateCode
import Shades.Shtring.Forest
import Shades.Shtring.Pack
import Shades.Shtring.Create
import Shades.Shtring.Allocate
import Shades.Shtring.RoundTrip
import Shades.Shtring.Hash
import Shades.Shtring.WindowCode
import Shades.Shtring.Slice
import Shades.Shtring.Print
import Shades.Shtring.Compare
import Shades.Shtring.Parts
import Shades.Shtring.TrimSpace
import Shades.Shtring.CursorCode
import Shades.Shtring.Cursor
import Shades.Shtring.Piecemeal
import Shades.LongestMatch
import Shades.Asm.StringCode
import Shades.Asm.StringLiteral
import Shades.Persistent
import Shades.Lists
import Shades.Queue.Schedule
import Shades.Queue.Code
import Shades.Queue.Refine
import Shades.Queue.Operations
import Shades.Queue.Versions
import Shades.Avl.Tree
import Shades.Avl.Path
import Shades.Avl.Code
import Shades.Avl.Rep
import Shades.Avl.Rotate
import Shades.Avl.Route
import Shades.Avl.Rebuild
import Shades.Avl.Compare
import Shades.Avl.Operations
import Shades.Avl.Versions
import Shades.Avl.Apart
import Shades.Avl.Update
import Shades.Avl.Bounds
import Shades.Avl.ByteCode
import Shades.Avl.Replay
import Shades.SortedItems
import Shades.Ist234.Code
import Shades.Ist234.Rep
import Shades.Ist234.Search
import Shades.Ist234.Nodes
import Shades.Ist234.Fields
import Shades.Ist234.Insert
import Shades.Ist234.Levels
import Shades.Ist234.Operations
import Shades.Ist234.Versions
import Shades.Ist234.Place
import Shades.Ist234.Transform
import Shades.Ist234.Descend
import Shades.Ist234.Down
import Shades.Ist234.GiveUp
import Shades.Ist234.Replace
import Shades.Ist234.Inner
import Shades.Ist234.Join
import Shades.Ist234.Delete
import Shades.Io.Code
import Shades.Io.RoundRobin
import Shades.Io.Counters
import Shades.Io.Runs
import Shades.Rotated
import Shades.Io.Rolling
import Shades.Io.Newest
import Shades.Io.History
import Shades.BinomialHeap
import Shades.MeldPrice
import Shades.OpenCells
import Shades.Priq.Code
import Shades.Priq.Rep
import Shades.Priq.Merge
import Shades.Priq.Minimum
import Shades.Priq.Operations
import Shades.Priq.Failing
import Shades.Priq.Overflow
import Shades.Priq.Versions
import Shades.Priq.Words
import Shades.Priq.Persist
import Shades.DigitTree
import Shades.Dh.Code
import Shades.Dh.Rep
import Shades.Dh.Insert
import Shades.Dh.Operations
import Shades.Dh.Versions
import Shades.Dh.Update
import Shades.Dh.Minimum
import Shades.Dh.Words
import Shades.SkewForest
import Shades.Lq.Code
import Shades.Lq.Rep
import Shades.Lq.Insert
import Shades.Lq.Remove
import Shades.Lq.Versions
import Shades.Lq.First
import Shades.Oid.Code
import Shades.Oid.Update
import Shades.Oid.Runs
import Shades.CellDecls
import Shades.CellEqual
import Shades.TaggedEqual
import Shades.Moved
import Shades.Tagged
import Shades.Interp.Machine
import Shades.Interp.Arithmetic
import Shades.Interp.Calls
import Shades.Interp.RunCont
import Shades.Interp.ListAppend
import Shades.TwoWayCache
import Shades.Interp.Cache
import Shades.Interp.Loaded
import Shades.Asm.FinishBcode
import Shades.Gc.RemSet
import Shades.Io.AsyncPosix
import Shades.Io.ByteOrder
import Shades.DoublyLinked
import Shades.Ends
import Shades.Gc.Commits
import Shades.Gc.GenerationRuns
import Shades.Gc.HeapRuns
import Shades.Gc.Refinement
