import Exe.Machine
import Exe.Places
import Exe.WorkStealingQueue
import Exe.WorkStealingQueueRuns
import Exe.Pool
import Exe.PoolSteps
import Exe.Coordinator
import Exe.PoolParking
import Exe.PoolWakeups
import Exe.FiniteSums
import Exe.PoolTasks
import Exe.PoolStop
import Exe.PoolStarvation
import Exe.CircularBuffer
import Exe.CircularBufferLifetimes
import Exe.BufferedChannel
import Exe.RendezvousChannel
import Exe.FiberMutex
import Exe.FiberWaitGroup
import Exe.Fibers
import Exe.FiberOwners
import Exe.Exclusion
import Exe.Composition
import Exe.Refinement
import Exe.Sections
import Exe.SpinLock
import Exe.Guarded
import Exe.ThreadWaitGroup
import Exe.GlobalTaskQueue
import Exe.FiberSteps
import Exe.FiberSections
import Exe.FiberWaiting
import Exe.PoolBodies
import Exe.FibersOnPool
import Exe.Get
import Exe.GetOnPool
import Exe.LeftistHeap
import Exe.IntrusiveHeap
import Exe.MergeDepth
import Exe.BlockingQueue
import Exe.FutexMutex
import Exe.CondVar
import Exe.Monitor
import Exe.Deadline
import Exe.TimerThread
import Exe.UnboundedBlockingQueue
import Exe.GuardedQueue
import Exe.ThreadPool
import Exe.ThreadPoolDrain
import Exe.RunLoop
import Exe.Sandbox
import Exe.ManualLoop
import Exe.Runtime
import Exe.RuntimeStop
import Exe.AtomicSharedPtr
import Exe.AtomicSharedPtrSteps
import Exe.ReferenceCounts
import Exe.HazardPointers
import Exe.HazardGc
import Exe.Linearization
import Exe.AtomicSharedPtrRegister
import Exe.Future
import Exe.FutureLedger
import Exe.FutureNodes
import Exe.FutureSlots
import Exe.FutureValues
import Exe.FutureValueSteps
import Exe.FutureDelivery
import Exe.FutureBothOk
import Exe.FutureCalls
import Exe.FutureTimers
import Exe.FuturePipelines
import Exe.FutureRuntimes
