import Coroutines.Lib.Transition
import Coroutines.Lib.Links
import Coroutines.Lib.Tally
import Coroutines.ManualResetEvent
import Coroutines.AsyncLatch
import Coroutines.AsyncLock
import Coroutines.ThreadPool
import Coroutines.WhenAll
import Coroutines.BinarySearch.Vanilla
import Coroutines.BinarySearch.StateMachine
import Coroutines.Lib.Heap
import Coroutines.Lib.Rounding
import Coroutines.Map.Basic
import Coroutines.Map.Resize
import Coroutines.Map.Refinement
import Coroutines.Lib.RingBuffer
import Coroutines.Lib.RoundRobin
import Coroutines.Throttler
import Coroutines.Map.Multilookup
import Coroutines.Task.Basic
import Coroutines.Task.Handoff
import Coroutines.Task.Suspension
import Coroutines.Task.Continuation
import Coroutines.BinarySearch.Coroutine
import Coroutines.Map.Capacity
import Coroutines.AsyncLatch.Stranding
import Coroutines.AsyncLatch.Resumption
import Coroutines.TimerService.Reactor
import Coroutines.TimerService.Basic
import Coroutines.TimerService.Service
import Coroutines.TimerService.Shutdown
import Coroutines.AsyncLock.Guard
import Coroutines.AsyncLock.HandOff
import Coroutines.Lib.Epoll
import Coroutines.Pipes.IoContext
import Coroutines.Pipes.Interest
import Coroutines.Pipes.Dispatch
import Coroutines.Map.Removal
import Coroutines.RecyclingAllocator
import Coroutines.Throttler.Scheduler
import Coroutines.Map.References
import Coroutines.Map.LoadFactor
import Coroutines.BinarySearch.Sorted
import Coroutines.ThreadPool.Progress
import Coroutines.ThreadPool.Draining
import Coroutines.ThreadPool.Queue
import Coroutines.ThreadPool.Lifetime
import Coroutines.Lazy
import Coroutines.Pipes.Transfer
import Coroutines.Throttler.Census
import Coroutines.Map.Overtaking
import Coroutines.Map.Streams
import Coroutines.Lib.Smear
import Coroutines.Map.PowerOfTwo
import Coroutines.Generator
import Coroutines.Composition
import Coroutines.TimerQueue
import Coroutines.TimerQueue.Atomic
import Coroutines.TimerService.Handover
import Coroutines.UniqueHandle
import Coroutines.AwaitableTimer
import Coroutines.AwaitableTimer.Moves
import Coroutines.AwaitableTimer.Kqueue
import Coroutines.AwaitableTimer.Threadpool
import Coroutines.Map.Order
import Coroutines.Map.Bindings
import Coroutines.Map.Lifetime
import Coroutines.Map.Stats
import Coroutines.Composition.TaskV0
import Coroutines.Composition.TaskV1
import Coroutines.RecyclingAllocator.Uniform
import Coroutines.Throttler.Frames
import Coroutines.Throttler.Turns
import Coroutines.Lib.Ownership
import Coroutines.Owners
import Coroutines.Task.Eager
import Coroutines.Task.Calls
import Coroutines.TimerService.Filetime
import Coroutines.TimerService.Requests
import Coroutines.TimerService.Sharing
import Coroutines.TimerService.Timeouts
