import DdgServer.Lib.Sys
import DdgServer.Lib.Count
import DdgServer.Lib.Pool
import DdgServer.Sched.Entry
import DdgServer.Sched.Scan
import DdgServer.Sched.Run
import DdgServer.Sched.Moves
import DdgServer.Sched.Entries
import DdgServer.Io.Epoll
import DdgServer.Io.FdContext
import DdgServer.Io.Manager
import DdgServer.Io.Table
import DdgServer.Io.CallLemmas
import DdgServer.Io.Agreement
import DdgServer.Io.Ledger
import DdgServer.Io.Schedulers
import DdgServer.Io.Batch
import DdgServer.Io.Consumers
import DdgServer.Sched.Exclusive
import DdgServer.Sched.Suspended
import DdgServer.Io.Owners
import DdgServer.Io.Timeout
import DdgServer.Sched.Requeue
import DdgServer.Sched.Affinity
import DdgServer.Sched.Drain
import DdgServer.Sched.StopCheck
import DdgServer.Sched.Iterator
import DdgServer.Sched.RootFiber
import DdgServer.Sched.Lifetimes
import DdgServer.Sync.Guard
import DdgServer.Sync.CasLock
import DdgServer.Fiber.Switch
import DdgServer.Fiber.Ids
import DdgServer.Sched.Wakeup
import DdgServer.Log.Pattern
import DdgServer.Sched.Start
import DdgServer.Lib.Flow
import DdgServer.Log.Grammar
import DdgServer.Config.LexicalCast
import DdgServer.Config.RoundTrip
import DdgServer.Log.Codec
import DdgServer.Config.Var
import DdgServer.Config.Listeners
import DdgServer.Config.Chain
import DdgServer.Config.Load
import DdgServer.Config.Registry
import DdgServer.Config.Lookup
import DdgServer.Log.Dump
import DdgServer.Log.Manager
import DdgServer.Log.Changes
import DdgServer.Log.Root
import DdgServer.Log.LogCalls
import DdgServer.Log.Delivery
import DdgServer.Log.Follows
import DdgServer.Log.AllOrNothing
import DdgServer.Log.UnknownType
import DdgServer.Log.Format
import DdgServer.Log.Formatters
import DdgServer.Log.Entries
import DdgServer.Log.BackTrace
import DdgServer.Log.Append
import DdgServer.Config.KeyCase
import DdgServer.Lib.Fifo
import DdgServer.Sched.InOrder
import DdgServer.Sched.Bypass
import DdgServer.Sched.Idle
import DdgServer.Sched.Tickle
import DdgServer.Config.Reload
import DdgServer.Lib.Sink
import DdgServer.Sync.WriteHold
import DdgServer.Log.Output
import DdgServer.Sched.Progress
import DdgServer.Sched.IoDrain
import DdgServer.Io.Waiters
import DdgServer.Sched.StopReturns
