import Ppcode.Core.LTS
import Ppcode.Core.Chain
import Ppcode.Core.CountedQueue
import Ppcode.Core.Registry
import Ppcode.Core.OrderedSet
import Ppcode.Thread.LockFreeList
import Ppcode.Thread.LockFreeInv
import Ppcode.Thread.LockFreeStep
import Ppcode.Thread.LockFreeConserve
import Ppcode.Fiber.Poller
import Ppcode.Fiber.PollerRegistry
import Ppcode.Fiber.PollerPending
import Ppcode.Fiber.PollerMirror
import Ppcode.Fiber.Timer
import Ppcode.Fiber.TimerSet
import Ppcode.Fiber.TimerSchedule
import Ppcode.Fiber.TimerWake
import Ppcode.Fiber.Processer
import Ppcode.Fiber.ProcesserQueue
import Ppcode.Fiber.ProcesserWake
import Ppcode.Fiber.FiberLife
import Ppcode.Fiber.SchedulerAffinity
import Ppcode.Fiber.FdManager
import Ppcode.Fiber.NonBlock
import Ppcode.Log.Logger
import Ppcode.Log.Inherit
import Ppcode.Fiber.SchedulerPush
import Ppcode.Fiber.Lifetime
import Ppcode.Fiber.StopSticks
import Ppcode.Config.ConfigVar
import Ppcode.Config.LoadFromYaml
import Ppcode.Config.LexicalCast
import Ppcode.Log.LogFormat
import Ppcode.Log.LogManager
import Ppcode.Log.LoggerYaml
import Ppcode.Fiber.HookedFd
import Ppcode.Fiber.PollerFires
import Ppcode.Fiber.CloseClean
import Ppcode.Fiber.IoAfterClose
import Ppcode.Fiber.FailedCalls
import Ppcode.Fiber.FdTable
import Ppcode.Fiber.OneFdCtx
import Ppcode.Fiber.DispatchDue
import Ppcode.Fiber.DoIo
import Ppcode.Fiber.DoIoSim
import Ppcode.Fiber.ConnectTimeout
import Ppcode.Fiber.FdLock
import Ppcode.Fiber.PollerBounds
import Ppcode.Fiber.TimerExpire
import Ppcode.Fiber.ClockStep
import Ppcode.Fiber.TimerHandle
import Ppcode.Fiber.PollerTimeout
import Ppcode.Thread.LockFreeFifo
import Ppcode.Thread.LockFreeNull
import Ppcode.Log.LogEvent
import Ppcode.Log.PatternGrammar
import Ppcode.Log.LogWrite
import Ppcode.Log.LoggerReload
import Ppcode.Config.VectorCast
import Ppcode.Config.KeyCase
import Ppcode.Fiber.SchedulerFamily
import Ppcode.Fiber.SleepTimer
import Ppcode.Fiber.SocketTimeout
import Ppcode.Fiber.PollerResize
import Ppcode.Thread.ScopedLock
import Ppcode.Fiber.AddFibers
import Ppcode.Core.Fairness
import Ppcode.Fiber.FiberCalls
import Ppcode.Fiber.CallReturns
import Ppcode.Config.FlowYaml
import Ppcode.Config.Yaml
import Ppcode.Core.AtomicQueue
import Ppcode.Core.LastWins
import Ppcode.Core.MapM
import Ppcode.Core.Simulation
import Ppcode.Fiber.Scheduler
import Ppcode.Fiber.SchedulerStep
import Ppcode.Fiber.SchedulerView
import Ppcode.Thread.LockFreeLinear
import Ppcode.Thread.Thread
import Ppcode.Fiber.Shutdown
import Ppcode.Fiber.StopLaw
import Ppcode.Fiber.ProcesserRound
import Ppcode.Fiber.FiberPlace
import Ppcode.Fiber.FiberRuns
import Ppcode.Fiber.PollerLoop
import Ppcode.Log.LogPrograms
import Ppcode.Core.Potential
import Ppcode.Thread.LockFreeWork
import Ppcode.Config.ConfigRuns
import Ppcode.Config.ListenerRuns
import Ppcode.Config.Listeners
import Ppcode.Core.RWLock
import Ppcode.Fiber.FdMap
