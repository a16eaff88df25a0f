import LearningLinux.ProcessRun.Model
import LearningLinux.ProcessRun.Invariant
import LearningLinux.ProcessRun.Work
import LearningLinux.ProcessRun.Running
import LearningLinux.ProcessRun.Contract
import LearningLinux.Lib.DList
import LearningLinux.TimerList.Model
import LearningLinux.TimerList.Represent
import LearningLinux.TimerList.Ops
import LearningLinux.TimerList.Contract
import LearningLinux.Lib.ByteMem
import LearningLinux.MiniCrt.Heap
import LearningLinux.MiniCrt.Tiling
import LearningLinux.MiniCrt.HeapOps
import LearningLinux.MiniCrt.HeapSafe
import LearningLinux.FrontEnd.Gen
import LearningLinux.FrontEnd.Parser
import LearningLinux.FrontEnd.Grammar
import LearningLinux.Lib.StateExcept
import LearningLinux.FrontEnd.ParserSound
import LearningLinux.FrontEnd.Accepted
import LearningLinux.FrontEnd.Fragment
import LearningLinux.FrontEnd.Labels
import LearningLinux.FrontEnd.ThreeAddress
import LearningLinux.Lib.Machine
import LearningLinux.FrontEnd.Semantics
import LearningLinux.FrontEnd.Translation
import LearningLinux.FrontEnd.Actions
import LearningLinux.FrontEnd.Storage
import LearningLinux.FrontEnd.Scanning
import LearningLinux.FrontEnd.Termination
import LearningLinux.FrontEnd.Typing
import LearningLinux.Lib.Scopes
import LearningLinux.FrontEnd.Static
import LearningLinux.FrontEnd.ParserComplete
import LearningLinux.FrontEnd.Text
import LearningLinux.FrontEnd.Scoping
import LearningLinux.MiniCrt.HeapList
import LearningLinux.ProcessRun.Points
import LearningLinux.ProcessRun.Counters
import LearningLinux.Lib.Threads
import LearningLinux.Lib.Ring
import LearningLinux.ProducerConsumer.Contract
import LearningLinux.SloppyCounter.Accuracy
import LearningLinux.ThreadPool.Model
import LearningLinux.Lib.SList
import LearningLinux.ThreadPool.Wakeup
import LearningLinux.ThreadPool.Tasks
import LearningLinux.ThreadPool.Contract
import LearningLinux.ChatServer.Table
import LearningLinux.FrontEnd.Language
import LearningLinux.Keyboard.Buffer
import LearningLinux.Keyboard.Keymap
import LearningLinux.Keyboard.Read
import LearningLinux.Keyboard.Modifiers
import LearningLinux.Scull.Pipe
import LearningLinux.Scull.Sessions
import LearningLinux.Scull.Allocation
import LearningLinux.AtomicMultiply.Linearizable
import LearningLinux.MutexProcess.SharedMutex
import LearningLinux.Scheduler.Model
import LearningLinux.Scheduler.Shares
import LearningLinux.Scheduler.Starvation
import LearningLinux.ChatServer.Delivery
import LearningLinux.ContextSwitch.Contract
import LearningLinux.ScullMem.Device
import LearningLinux.ScullMem.Bytes
import LearningLinux.ScullMem.Disclosure
import LearningLinux.ScullMem.InFlight
import LearningLinux.Scull.Single
import LearningLinux.Scull.Owner
import LearningLinux.Boot.Paging
import LearningLinux.Boot.Loader
import LearningLinux.Boot.LoadFile
import LearningLinux.Boot.Search
import LearningLinux.FrontEnd.Continue
import LearningLinux.FrontEnd.ArrayAccess
import LearningLinux.FrontEnd.Printing
import LearningLinux.FrontEnd.Subscripts
import LearningLinux.FrontEnd.Rendering
import LearningLinux.TimerList.Removal
import LearningLinux.MiniCrt.FirstFit
import LearningLinux.Lib.CString
import LearningLinux.MiniCrt.Strings
import LearningLinux.MiniCrt.Itoa
import LearningLinux.MiniCrt.Printf
import LearningLinux.FourSquare.Search
import LearningLinux.Lib.Postfix
import LearningLinux.Postfix.Parser
import LearningLinux.Scheduler.Select
import LearningLinux.Boot.ClusterChain
import LearningLinux.Console.DispStr
import LearningLinux.Boot.InitKernel
import LearningLinux.ScullMem.Division
import LearningLinux.Keyboard.Session
import LearningLinux.Keyboard.Framing
import LearningLinux.CalcLl.Model
import LearningLinux.CalcLl.Grammar
import LearningLinux.CalcLl1.Model
import LearningLinux.CalcLl1.Sentences
import LearningLinux.CalcLl1.Accepted
import LearningLinux.Console.Itoa
import LearningLinux.Scull.Command
import LearningLinux.ScullMem.Collisions
import LearningLinux.Lib.SegDescriptor
import LearningLinux.Protect.Descriptor
import LearningLinux.Boot.FatPacking
import LearningLinux.KernelPrivilege.Core
import LearningLinux.KernelPrivilege.LoadProgram
import LearningLinux.KernelPrivilege.Stacks
import LearningLinux.ScullMem.Private
import LearningLinux.TimerList.Server
