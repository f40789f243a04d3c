import FoundationComponents.Machine.Basic
import FoundationComponents.Machine.Tally
import FoundationComponents.LockFreeQueue.Basic
import FoundationComponents.LockFreeQueue.Invariant
import FoundationComponents.LockFreeQueue.Tickets
import FoundationComponents.LockFreeQueue.Sequential
import FoundationComponents.ConnectionPool.Basic
import FoundationComponents.ConnectionPool.Counters
import FoundationComponents.ConnectionPool.Ownership
import FoundationComponents.ConnectionPool.Cap
import FoundationComponents.Circular.Basic
import FoundationComponents.RingBuffer.Basic
import FoundationComponents.RingBuffer.Refinement
import FoundationComponents.HighPerformanceTimer.Basic
import FoundationComponents.HighPerformanceTimer.Agreement
import FoundationComponents.Reactor.Dispatch
import FoundationComponents.Directory.Basic
import FoundationComponents.MultiThreadReactor.Basic
import FoundationComponents.MultiThreadReactor.Owners
import FoundationComponents.ThreadPool.Basic
import FoundationComponents.ThreadPool.Wakeup
import FoundationComponents.LRUCache.Basic
import FoundationComponents.LRUCache.Invariant
import FoundationComponents.HighPerformanceTimer.Outcomes
import FoundationComponents.ConnectionPool.Exclusive
import FoundationComponents.ConnectionPool.Wakeup
import FoundationComponents.RingBuffer.Monitor
import FoundationComponents.RingBuffer.Wakeup
import FoundationComponents.LRUCache.PinnedMap
import FoundationComponents.LRUCache.Refinement
import FoundationComponents.MemoryLeakDetector.Accounting
import FoundationComponents.MemoryLeakDetector.Leaks
import FoundationComponents.Reactor.Loop
import FoundationComponents.Reactor.LostStop
import FoundationComponents.MultiThreadReactor.Lifecycle
import FoundationComponents.MultiThreadReactor.Sequential
import FoundationComponents.ConnectionPool.Shutdown
import FoundationComponents.ConnectionPool.LeftOpen
import FoundationComponents.LockFreeQueue.Cells
import FoundationComponents.LockFreeQueue.Quiescence
import FoundationComponents.LockFreeQueue.Failures
import FoundationComponents.LockFreeQueue.Words
import FoundationComponents.LockFreeQueue.Size
import FoundationComponents.LRUCache.Disposal
import FoundationComponents.HighPerformanceTimer.Threads
import FoundationComponents.HighPerformanceTimer.Sleep
import FoundationComponents.HighPerformanceTimer.Shutdown
import FoundationComponents.LRUCache.Capacity
import FoundationComponents.MemoryLeakDetector.Scopes
import FoundationComponents.MemoryLeakDetector.Resets
import FoundationComponents.Reactor.Interest
import FoundationComponents.ThreadPool.Creation
import FoundationComponents.ThreadPool.Termination
import FoundationComponents.ThreadPool.Queue
import FoundationComponents.Memory.Basic
import FoundationComponents.Memory.Chain
import FoundationComponents.MemoryPool.Basic
import FoundationComponents.MemoryPool.Page
import FoundationComponents.RingBuffer.Statistics
import FoundationComponents.HighPerformanceTimer.Deadlock
import FoundationComponents.HighPerformanceTimer.Due
import FoundationComponents.HighPerformanceTimer.Grid
import FoundationComponents.Wrapping.Basic
import FoundationComponents.HighPerformanceTimer.Early
import FoundationComponents.ConnectionPool.Alone
import FoundationComponents.ConnectionPool.CleanerRound
import FoundationComponents.ConnectionPool.Expiry
import FoundationComponents.Linearizability.Basic
import FoundationComponents.RingBuffer.Linearizable
import FoundationComponents.LockFreeQueue.Linearizable
import FoundationComponents.LockFreeQueue.Progress
import FoundationComponents.EchoServer.Basic
import FoundationComponents.EchoServer.Invariant
import FoundationComponents.EchoServer.Serving
import FoundationComponents.EchoServer.Echo
import FoundationComponents.ThreadPool.Sections
import FoundationComponents.ThreadPool.Refinement
import FoundationComponents.ThreadPool.Tasks
import FoundationComponents.MemoryLeakDetector.Operators
import FoundationComponents.ThreadPool.Progress
import FoundationComponents.ConnectionPool.Progress
import FoundationComponents.HighPerformanceTimer.Progress
import FoundationComponents.MultiThreadReactor.Progress
