import CppConcurrency.Machines
import CppConcurrency.TicketRing
import CppConcurrency.LockFreeQueue
import CppConcurrency.LockFreeQueueCapacity
import CppConcurrency.LockFreeQueueRing
import CppConcurrency.LockFreeQueueSlots
import CppConcurrency.LockFreeQueueFifo
import CppConcurrency.LockFreeQueueTickets
import CppConcurrency.LockFreeQueueSafety
import CppConcurrency.LockFreeQueueStorage
import CppConcurrency.LockFreeQueueDestructor
import CppConcurrency.LockFreeQueueRefusals
import CppConcurrency.LockFreeQueueSize
import CppConcurrency.LockFreeQueueBuffer
import CppConcurrency.LinkedChains
import CppConcurrency.ThreadSafeQueue
import CppConcurrency.ThreadSafeQueueFifo
import CppConcurrency.ThreadSafeQueueWakeups
import CppConcurrency.ThreadSafeQueueExceptions
import CppConcurrency.DataChunkQueue
import CppConcurrency.DataChunkQueueCells
import CppConcurrency.DataChunkQueueChunks
import CppConcurrency.DataChunkQueuePositions
import CppConcurrency.CellQueues
import CppConcurrency.LockFreePipe
import CppConcurrency.LockFreePipeMarks
import CppConcurrency.LockFreePipePublication
import CppConcurrency.DataChunkQueueGaps
import CppConcurrency.LockFreePipeWakeups
import CppConcurrency.LockFreePipeUnwrite
import CppConcurrency.LockFreePipeChunks
import CppConcurrency.ThreadPool
import CppConcurrency.ThreadPoolShutdown
import CppConcurrency.ThreadSafeSharedPtr
import CppConcurrency.ThreadSafeSharedPtrOwners
import CppConcurrency.ThreadSafeSharedPtrSequence
import CppConcurrency.ThreadSafeSharedPtrTallies
import CppConcurrency.ThreadSafeSharedPtrAssign
import CppConcurrency.ThreadSafeSharedPtrEmpty
import CppConcurrency.ThreadSafeSharedPtrCareless
import CppConcurrency.OrderedSets
import CppConcurrency.Timer
import CppConcurrency.TimerHandles
import CppConcurrency.TimerOrder
import CppConcurrency.TimerCallbacks
import CppConcurrency.TimerSleep
import CppConcurrency.DataChunkQueueThreads
import CppConcurrency.DataChunkQueueOwnership
import CppConcurrency.DataChunkQueueBounds
import CppConcurrency.DataChunkQueueSafety
import CppConcurrency.ThreadPoolTasks
import CppConcurrency.ThreadPoolAccumulate
import CppConcurrency.BlockQueue
import CppConcurrency.BlockQueueWakeups
import CppConcurrency.BlockQueueFifo
import CppConcurrency.LockFreeArrayQueue
import CppConcurrency.LockFreeArrayQueueLocked
import CppConcurrency.PhasedRing
import CppConcurrency.LockFreeArrayQueueCas
import CppConcurrency.LockFreeArrayQueueTickets
import CppConcurrency.LockFreeArrayQueueSafety
import CppConcurrency.LockFreeArrayQueueRefusals
import CppConcurrency.LockFreeQueueExceptions
import CppConcurrency.SequentialObjects
import CppConcurrency.Pipes
import CppConcurrency.Yqueue
import CppConcurrency.YqueueCells
import CppConcurrency.YqueueSteps
import CppConcurrency.YqueueSafety
import CppConcurrency.Ypipe
import CppConcurrency.YpipeRefinement
import CppConcurrency.YpipeSafety
import CppConcurrency.Potentials
import CppConcurrency.Contention
import CppConcurrency.YpipeProgress
import CppConcurrency.YpipeCalls
import CppConcurrency.YqueueThreads
import CppConcurrency.YqueueThreadsSafety
import CppConcurrency.YqueueThreadsProgress
import CppConcurrency.YqueueThreadsWakeups
import CppConcurrency.YqueueThreadsLost
import CppConcurrency.LockFreeQueueProgress
import CppConcurrency.LockFreeArrayQueueProgress
import CppConcurrency.LockFreeArrayQueueSizes
import CppConcurrency.ThreadSafeQueueProgress
import CppConcurrency.BlockQueueProgress
import CppConcurrency.ThreadPoolProgress
import CppConcurrency.ParallelAccumulateProgress
import CppConcurrency.ThreadSafeQueueThreads
import CppConcurrency.ThreadSafeQueueThreadsProgress
import CppConcurrency.ThreadSafeQueueThreadsLost
