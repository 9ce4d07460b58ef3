import Sylar.Lib.Lts
import Sylar.Lib.Except
import Sylar.Lib.Count
import Sylar.Lib.OrderedSet
import Sylar.Lib.Changes
import Sylar.Lib.Registry
import Sylar.Lib.LockOrder
import Sylar.Lib.FirstFit
import Sylar.Lib.BlockYaml
import Sylar.Scheduler.Task
import Sylar.Scheduler.Run
import Sylar.Scheduler.Base
import Sylar.Scheduler.Drain
import Sylar.Scheduler.Handover
import Sylar.Scheduler.HandoverProofs
import Sylar.Scheduler.Wakeups
import Sylar.Scheduler.Lifecycle
import Sylar.IOManager.Events
import Sylar.IOManager.EventsProofs
import Sylar.IOManager.Idle
import Sylar.IOManager.Contexts
import Sylar.IOManager.Agreement
import Sylar.IOManager.Registrations
import Sylar.Hook.Call
import Sylar.Hook.CallProofs
import Sylar.Hook.FdManager
import Sylar.Hook.NonBlock
import Sylar.Hook.FdContexts
import Sylar.Hook.Sleep
import Sylar.Hook.Timeouts
import Sylar.IOManager.Machine
import Sylar.IOManager.Stop
import Sylar.IOManager.Wake
import Sylar.IOManager.Served
import Sylar.Timer.Manager
import Sylar.Timer.ManagerProofs
import Sylar.Timer.Histories
import Sylar.Timer.Front
import Sylar.Timer.Expiry
import Sylar.Timer.Service
import Sylar.Hook.Sleepers
import Sylar.IOManager.Deadline
import Sylar.IOManager.Timeout
import Sylar.Config.SetValue
import Sylar.Config.LexicalCast
import Sylar.Config.FromString
import Sylar.Config.LoadFromYaml
import Sylar.Config.LoadFromConfDir
import Sylar.Config.Store
import Sylar.Log.Define
import Sylar.Log.Loggers
import Sylar.Log.Formatter
import Sylar.Log.FileAppender
import Sylar.Log.Acceptance
import Sylar.Log.DateTime
import Sylar.Log.ScanLoop
import Sylar.Log.Appenders
import Sylar.Log.Export
import Sylar.Log.Output
import Sylar.Env.Init
import Sylar.Util.FileSystem
import Sylar.Util.Rm
import Sylar.Util.Mkdir
import Sylar.Util.Realpath
import Sylar.Util.Replace
import Sylar.Util.ListAllFile
import Sylar.Fiber.Switch
import Sylar.Fiber.Nested
import Sylar.Fiber.Current
import Sylar.Fiber.Lifetime
import Sylar.Thread.Locks
import Sylar.Thread.Start
