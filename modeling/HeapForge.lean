import HeapForge.Lib.Run
import HeapForge.Lib.Bitmap
import HeapForge.Lib.Words
import HeapForge.Lib.Fnv
import HeapForge.Lib.Mem
import HeapForge.Lib.Word
import HeapForge.Lib.Links
import HeapForge.Lib.Node
import HeapForge.Lib.Tiling
import HeapForge.Lib.Runs
import HeapForge.Lib.Gaps
import HeapForge.Lib.Dyadic
import HeapForge.Lib.Probe
import HeapForge.Lib.SList
import HeapForge.Lib.Owned
import HeapForge.Lib.Sum
import HeapForge.Lib.Spaced
import HeapForge.Lib.Fields
import HeapForge.Lib.Lock
import HeapForge.Lib.Objects
import HeapForge.Lib.Pages
import HeapForge.Lib.Writeback
import HeapForge.Lib.Decorator
import HeapForge.Lib.DecoratorRuns
import HeapForge.Platform
import HeapForge.CPool.Impl
import HeapForge.CPool.Crash
import HeapForge.CPool.Replay
import HeapForge.CPool.Restart
import HeapForge.CPool.Marks
import HeapForge.CPool.Layout
import HeapForge.CPool.Bytes
import HeapForge.CPool.Frame
import HeapForge.CPool.Creation
import HeapForge.CPool.Checksum
import HeapForge.CPool.Commands
import HeapForge.CPool.Lag
import HeapForge.CPool.Stages
import HeapForge.CPool.Plans
import HeapForge.CPool.Durable
import HeapForge.CppPool.Impl
import HeapForge.CppPool.Crash
import HeapForge.FreeList.Impl
import HeapForge.FreeList.Ring
import HeapForge.FreeList.Blocks
import HeapForge.FreeList.Invariant
import HeapForge.FreeList.Run
import HeapForge.FreeList.Walk
import HeapForge.FreeList.Resolve
import HeapForge.FreeList.Layout
import HeapForge.FreeList.Fit
import HeapForge.FreeList.Placement
import HeapForge.FreeList.Client
import HeapForge.Buddy.System
import HeapForge.Buddy.Impl
import HeapForge.Buddy.Refine
import HeapForge.Buddy.Run
import HeapForge.Buddy.Walk
import HeapForge.Buddy.Layout
import HeapForge.Buddy.Order
import HeapForge.Buddy.Client
import HeapForge.RustBuddy.Impl
import HeapForge.RustBuddy.Refine
import HeapForge.RustBuddy.Equiv
import HeapForge.RustBuddy.Stacks
import HeapForge.DebugHeap.Impl
import HeapForge.DebugHeap.Table
import HeapForge.DebugHeap.Classify
import HeapForge.DebugHeap.Guards
import HeapForge.DebugHeap.Threads
import HeapForge.DebugHeap.Puts
import HeapForge.Stack.Impl
import HeapForge.Stack.Run
import HeapForge.Stack.Lifo
import HeapForge.Stack.Rewind
import HeapForge.Stack.Client
import HeapForge.Oversize
import HeapForge.DebugHeap.Decorate
import HeapForge.DebugHeap.Leaks
import HeapForge.CppDebugHeap.Impl
import HeapForge.CppDebugHeap.Shield
import HeapForge.RustDebugHeap.Impl
import HeapForge.RustDebugHeap.Shield
import HeapForge.Slab.Impl
import HeapForge.Slab.Places
import HeapForge.Slab.Refine
import HeapForge.Slab.Run
import HeapForge.Slab.Partition
import HeapForge.Slab.Growth
import HeapForge.Slab.Client
import HeapForge.RustSlab.Impl
import HeapForge.RustSlab.Equiv
import HeapForge.BlockPool.Impl
import HeapForge.BlockPool.Run
import HeapForge.BlockPool.Search
import HeapForge.BlockPool.Walk
import HeapForge.BlockPool.Client
import HeapForge.RustBlockPool.Impl
import HeapForge.RustBlockPool.Equiv
import HeapForge.GuardHeap.Impl
import HeapForge.GuardHeap.Slots
import HeapForge.CppGuardHeap.Impl
import HeapForge.CppGuardHeap.Registry
import HeapForge.CppGuardHeap.Run
import HeapForge.CppGuardHeap.Locks
import HeapForge.GuardHeap.Placement
import HeapForge.GuardHeap.Pages
import HeapForge.GuardHeap.Watch
import HeapForge.GuardHeap.Threads
import HeapForge.GuardHeap.Races
import HeapForge.Geometry
import HeapForge.Alignment
import HeapForge.Snapshot
