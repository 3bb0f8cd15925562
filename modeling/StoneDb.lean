import StoneDb.Key.InternalKey
import StoneDb.Lib.BigEndian
import StoneDb.Lib.Chain
import StoneDb.Lib.Loop
import StoneDb.Lib.OrderedMap
import StoneDb.MemTable.Basic
import StoneDb.MemTable.History
import StoneDb.MemTable.Overflow
import StoneDb.SkipList.Arena
import StoneDb.SkipList.Basic
import StoneDb.SkipList.Cursor
import StoneDb.SkipList.Growth
import StoneDb.SkipList.Invariant
import StoneDb.SkipList.Linking
import StoneDb.SkipList.Memory
import StoneDb.SkipList.Put
import StoneDb.SkipList.Refinement
import StoneDb.SkipList.Search
import StoneDb.Concurrent.BackPointer
import StoneDb.Concurrent.Insert
import StoneDb.MemTable.Refused
import StoneDb.MemTable.Versions
import StoneDb.MemTable.Retained
import StoneDb.Lib.Tiling
import StoneDb.Lib.ByteMemory
import StoneDb.SkipList.ByteArena
import StoneDb.SkipList.ByteNodes
import StoneDb.SkipList.Records
import StoneDb.SkipList.Reachable
import StoneDb.SkipList.Lengths
import StoneDb.SkipList.MemSize
import StoneDb.SkipList.Wrapping
import StoneDb.SkipList.Descent
import StoneDb.Concurrent.Alloc
import StoneDb.Concurrent.Access
import StoneDb.Concurrent.Stores
import StoneDb.Concurrent.Bounds
import StoneDb.SkipList.Levels
import StoneDb.Key.Order
import StoneDb.Timeline.Serialize
import StoneDb.Timeline.Replay
import StoneDb.Timeline.Base64
import StoneDb.Checkpoint.Blocking
import StoneDb.Checkpoint.Capture
import StoneDb.Checkpoint.Wait
import StoneDb.Lib.Amortized
import StoneDb.Concurrent.Exchange
import StoneDb.Concurrent.Contention
import StoneDb.Concurrent.Stages
import StoneDb.Concurrent.Potential
import StoneDb.Concurrent.Progress
import StoneDb.Lib.Hindsight
import StoneDb.Concurrent.Linearize
import StoneDb.Concurrent.Alone
import StoneDb.Concurrent.Towers
import StoneDb.Lib.Staircase
import StoneDb.Cost.Search
import StoneDb.Lib.Mean
import StoneDb.Lib.Geometric
import StoneDb.Cost.Height
import StoneDb.Cost.Inserted
import StoneDb.Cost.Expected
import StoneDb.Concurrent.WaitFree
import StoneDb.Concurrent.Memory
import StoneDb.MemTable.Caught
import StoneDb.Lib.Sweep
import StoneDb.Concurrent.Reverse
import StoneDb.Concurrent.Readers
import StoneDb.Concurrent.ByteMachine
import StoneDb.Concurrent.Bytes
import StoneDb.Concurrent.ByteRun
