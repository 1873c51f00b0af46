import Dlbase.Lib.Exec
import Dlbase.Lib.Zipper
import Dlbase.Lib.LinkedTree
import Dlbase.Lib.Successor
import Dlbase.Lib.RedBlack
import Dlbase.Lib.Avl
import Dlbase.Lib.Bits
import Dlbase.Rbtree.Model
import Dlbase.Rbtree.Shape
import Dlbase.Rbtree.Links
import Dlbase.Rbtree.Insert
import Dlbase.Rbtree.InsertRun
import Dlbase.Rbtree.DeleteRepair
import Dlbase.Rbtree.Delete
import Dlbase.Rbtree.DeleteParents
import Dlbase.Rbtree.Next
import Dlbase.Bstree.Next
import Dlbase.Bstree.DeleteParents
import Dlbase.Bstree.DeleteNext
import Dlbase.Bstree.Model
import Dlbase.Bstree.Shape
import Dlbase.Bstree.Links
import Dlbase.Bstree.InsertShape
import Dlbase.Bstree.Insert
import Dlbase.Bstree.InsertRun
import Dlbase.Bstree.DeleteShape
import Dlbase.Bstree.Delete
import Dlbase.Bstree.DeleteByKey
import Dlbase.Bstree.Duplicate
import Dlbase.Lib.Ring
import Dlbase.Table.Log2
import Dlbase.Table.Model
import Dlbase.Table.Chain
import Dlbase.Table.Layout
import Dlbase.Table.Insert
import Dlbase.Table.Keys
import Dlbase.Table.Find
import Dlbase.Table.Resize
import Dlbase.Lib.Slices
import Dlbase.Table.Count
import Dlbase.Table.Overflow
import Dlbase.Table.Delete
import Dlbase.Table.Clear
import Dlbase.Table.Owns
import Dlbase.Table.Calls
import Dlbase.Table.Runs
import Dlbase.Table.Refine
import Dlbase.Table.Invariant
import Dlbase.Table.Release
import Dlbase.Lib.Ends
import Dlbase.Table.Leftover
import Dlbase.Table.Room
import Dlbase.Table.Rehash
import Dlbase.Table.Sizes
import Dlbase.Table.Pointer
import Dlbase.Table.Failure
import Dlbase.Table.Atomic
import Dlbase.Fifo.Model
import Dlbase.Fifo.Queue
import Dlbase.Fifo.Geometry
import Dlbase.Fifo.Threads
import Dlbase.Fifo.Rounding
import Dlbase.Lib.Memory
import Dlbase.Pool.Model
import Dlbase.Pool.Chain
import Dlbase.Pool.Records
import Dlbase.Pool.Bounds
import Dlbase.Pool.Cleanup
import Dlbase.Pool.Life
import Dlbase.Array.Model
import Dlbase.Array.Place
import Dlbase.Array.Grow
import Dlbase.Array.Apart
import Dlbase.Array.Run
import Dlbase.Lib.Output
import Dlbase.String.Model
import Dlbase.String.Format
import Dlbase.String.Bounded
import Dlbase.String.Number
import Dlbase.Lib.Sextets
import Dlbase.Lib.Utf8
import Dlbase.String.Base64
import Dlbase.String.RoundTrip
import Dlbase.String.Legal
import Dlbase.String.Scan
import Dlbase.String.Overread
import Dlbase.Lib.Split
import Dlbase.String.Split
import Dlbase.String.Agree
import Dlbase.String.Search
import Dlbase.String.Utf8
import Dlbase.Lib.Hexadecimal
import Dlbase.String.Escape
import Dlbase.String.Unescape
import Dlbase.Lib.JsonString
import Dlbase.String.Json
import Dlbase.String.Hextoi
import Dlbase.String.Atoi
import Dlbase.String.Hex
import Dlbase.Crypt.Model
import Dlbase.Crypt.Bounds
import Dlbase.Crypt.RoundTrip
import Dlbase.Lib.Orbit
import Dlbase.Re.Model
import Dlbase.Re.Loop
import Dlbase.Lib.Objects
import Dlbase.Hash.Nodes
import Dlbase.Hash.Model
import Dlbase.Hash.Chain
import Dlbase.Lib.Log
import Dlbase.Hash.Handled
import Dlbase.Hash.Ledger
import Dlbase.Hash.Entries
import Dlbase.Hash.Slots
import Dlbase.Hash.Observe
import Dlbase.Hash.Set
import Dlbase.Hash.Del
import Dlbase.Hash.Runs
import Dlbase.Hash.Fidelity
import Dlbase.Hash.Release
import Dlbase.Hash.Count
import Dlbase.Hash.Fail
import Dlbase.Phash.Model
import Dlbase.Phash.Set
import Dlbase.Phash.Runs
import Dlbase.Phash.Fidelity
import Dlbase.Lib.Circle
import Dlbase.Lib.Segment
import Dlbase.Queue.Model
import Dlbase.Queue.Macros
import Dlbase.Queue.Split
import Dlbase.Lib.StableSort
import Dlbase.Queue.Sort
import Dlbase.Queue.Middle
import Dlbase.Slab.Model
import Dlbase.Slab.Tiling
import Dlbase.Slab.Shape
import Dlbase.Slab.Lists
import Dlbase.Slab.Gap
import Dlbase.Slab.Pages
import Dlbase.Slab.Join
import Dlbase.Slab.Bitmap
import Dlbase.Slab.Take
import Dlbase.Slab.Alloc
import Dlbase.Slab.Free
import Dlbase.Slab.Places
import Dlbase.Slab.Start
import Dlbase.Slab.Fixed
import Dlbase.Slab.Regions
import Dlbase.Slab.Runs
import Dlbase.Slab.Account
import Dlbase.Slab.Reject
import Dlbase.Lib.Rose
import Dlbase.Lib.Exact
import Dlbase.Lib.LinkedRose
import Dlbase.Lib.JsonToken
import Dlbase.Json.Rcstring
import Dlbase.Json.Lexer
import Dlbase.Json.Lexing
import Dlbase.Json.Tokens
import Dlbase.Json.Model
import Dlbase.Json.Parser
import Dlbase.Json.Grammar
import Dlbase.Json.Reader
import Dlbase.Json.Insert
import Dlbase.Json.Free
import Dlbase.Json.Build
import Dlbase.Json.Rounds
import Dlbase.Json.Document
import Dlbase.Json.Fragment
import Dlbase.Json.Stream
import Dlbase.Json.Printer
import Dlbase.Json.Printing
import Dlbase.Json.Roundtrip
import Dlbase.Lib.JsonPiece
import Dlbase.Json.Escape
import Dlbase.Json.Strip
import Dlbase.Json.Format
import Dlbase.Json.Client
import Dlbase.Json.Saxy
import Dlbase.Json.SaxyRuns
