import CoKV.Lib.Chain
import CoKV.Lib.Except
import CoKV.Lib.Run
import CoKV.SkipList.Defs
import CoKV.SkipList.Shape
import CoKV.SkipList.Descent
import CoKV.SkipList.Relink
import CoKV.SkipList.InsertTheorems
import CoKV.SkipList.DeleteTheorems
import CoKV.SkipList.MapTheorems
import CoKV.SkipList.WellLinked
import CoKV.SkipList.RunTheorems
import CoKV.SkipList.AccessTheorems
import CoKV.SkipList.Destructor
import CoKV.Lib.CStr
import CoKV.SkipList.File
import CoKV.SkipList.FileTheorems
import CoKV.SkipList.LoadTheorems
import CoKV.Lib.Shares
import CoKV.KVserver.Protocol
import CoKV.KVserver.ProtocolTheorems
import CoKV.Lib.Strtok
import CoKV.KVserver.Tokens
import CoKV.KVserver.SharedTokens
import CoKV.KVserver.Connection
import CoKV.KVserver.TurnTheorems
import CoKV.KVserver.ReplyTheorems
import CoKV.KVserver.SlotTheorems
import CoKV.KVserver.RoomTheorems
import CoKV.FdManager.Context
import CoKV.FdManager.Defs
import CoKV.FdManager.GetTheorems
import CoKV.FdManager.MapTheorems
import CoKV.Hook.IoFunc
import CoKV.Hook.Descriptors
import CoKV.Hook.DescriptorTheorems
import CoKV.KVserver.StreamTheorems
import CoKV.KVserver.ServiceTheorems
import CoKV.Scheduler.Defs
import CoKV.Scheduler.Turns
import CoKV.Scheduler.TurnTheorems
import CoKV.Scheduler.ExclusiveTheorems
import CoKV.Scheduler.FrameTheorems
import CoKV.Scheduler.TermTheorems
import CoKV.Scheduler.Accounts
import CoKV.Scheduler.StopTheorems
import CoKV.Scheduler.Queue
import CoKV.Scheduler.QueueTheorems
import CoKV.Scheduler.ActiveTheorems
import CoKV.Scheduler.ThreadLocals
import CoKV.Scheduler.ThreadLocalTheorems
import CoKV.Scheduler.Startup
import CoKV.Scheduler.StartupTheorems
import CoKV.Scheduler.StartedTheorems
import CoKV.IOManager.Defs
import CoKV.IOManager.Sections
import CoKV.IOManager.Contexts
import CoKV.IOManager.CountTheorems
import CoKV.IOManager.Links
import CoKV.IOManager.Objects
import CoKV.IOManager.InterestTheorems
import CoKV.IOManager.WaiterTheorems
import CoKV.IOManager.Threads
import CoKV.IOManager.TableTheorems
import CoKV.IOManager.Loops
import CoKV.IOManager.IdleTheorems
import CoKV.IOManager.RefusedTheorems
import CoKV.IOManager.CancelTheorems
import CoKV.IOManager.ReportTheorems
import CoKV.IOManager.Readiness
import CoKV.IOManager.ReadinessTheorems
import CoKV.TcpServer.Defs
import CoKV.TcpServer.CloseTheorems
import CoKV.TcpServer.Accept
import CoKV.TcpServer.AcceptTheorems
import CoKV.Lib.OrderedSet
import CoKV.Time.Defs
import CoKV.Time.OrderTheorems
import CoKV.Time.OnceTheorems
import CoKV.Time.TickleTheorems
import CoKV.Time.ExpireTheorems
import CoKV.Time.AnswerTheorems
import CoKV.Time.DeadlineTheorems
import CoKV.Time.Threads
import CoKV.Time.LockTheorems
import CoKV.Hook.Waits
import CoKV.Hook.WaitTheorems
import CoKV.Hook.ContextTheorems
import CoKV.Hook.Answers
import CoKV.Hook.AnswerTheorems
import CoKV.Hook.TimeoutTheorems
import CoKV.IOManager.Timeout
import CoKV.IOManager.Workers
import CoKV.IOManager.WakeTheorems
import CoKV.IOManager.LoopTheorems
import CoKV.Socket.Address
import CoKV.Lib.LockOrder
import CoKV.Lock.Order
import CoKV.Lock.Guard
