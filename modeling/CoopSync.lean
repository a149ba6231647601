import CoopSync.AtomicCondition.Rest
import CoopSync.Barrier.Completion
import CoopSync.Barrier.Rest
import CoopSync.ConditionVariable.OverMutex
import CoopSync.Future.Assignment
import CoopSync.Future.Atomic
import CoopSync.Future.Rest
import CoopSync.Handles.Consumption
import CoopSync.Handles.Invocation
import CoopSync.IntrusiveList.Refinement
import CoopSync.Latch.Atomic
import CoopSync.Mutex.Atomic
import CoopSync.Promise.Abandonment
import CoopSync.Promise.Calls
import CoopSync.ScopedLock.Rest
import CoopSync.Semaphore.Atomic
import CoopSync.Semaphore.Conservation
import CoopSync.SharedMutex.Rest
import CoopSync.WaitFor.Frame
import CoopSync.WaitFor.Single
import CoopSync.WaitQueue.Conservation
import CoopSync.WaitQueue.Snapshot
