import Everyfile.Db.Refine
import Everyfile.Db.Fuzzy
import Everyfile.Db.Fits
import Everyfile.Db.Print
import Everyfile.Db.Transaction
import Everyfile.Init.Pipeline
import Everyfile.Init.OverQueue
import Everyfile.Main.Search
import Everyfile.Main.Tree
import Everyfile.Init.Scan
import Everyfile.Init.ScanResult
import Everyfile.Init.StoredName
import Everyfile.Queue.Correct
import Everyfile.Queue.Fifo
import Everyfile.Init.Agree
import Everyfile.Init.Live
import Everyfile.Daemon.Index
import Everyfile.Daemon.Receive
import Everyfile.Daemon.Loop
import Everyfile.Daemon.EndToEnd
import Everyfile.Daemon.Service
import Everyfile.Daemon.Mounted
import Everyfile.Daemon.PidFile
import Everyfile.Daemon.TakeOver
import Everyfile.Kernel.Buffer
import Everyfile.Kernel.Request
import Everyfile.Kernel.Deadlock
import Everyfile.Kernel.Delivery
import Everyfile.Kernel.InOrder
import Everyfile.Kernel.Progress
import Everyfile.Kernel.CatchUp
import Everyfile.Kernel.Wakeup
import Everyfile.Kernel.Probe
import Everyfile.Kernel.MountInfo
import Everyfile.Kernel.Report
import Everyfile.Kernel.MountLoad
import Everyfile.Kernel.Module
import Everyfile.Kernel.Unload
import Everyfile.Kernel.Ready
import Everyfile.Kernel.ReadFile
import Everyfile.Kernel.SendMsg
import Everyfile.Kernel.SpillLog
