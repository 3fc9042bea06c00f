import AVPredictor.Base.Bytes
import AVPredictor.Structs
import AVPredictor.Offline.Data
import AVPredictor.Offline.MemTrace
import AVPredictor.Base.Loops
import AVPredictor.Offline.Predictor
import AVPredictor.Base.Reorder
import AVPredictor.Monitor.Record
import AVPredictor.Monitor.Callbacks
import AVPredictor.Offline.SyncTrace
import AVPredictor.Offline.LockTrace
import AVPredictor.Offline.Pruner
import AVPredictor.Base.Mutex
import AVPredictor.Feasible.Locks
import AVPredictor.Offline.Grouper
import AVPredictor.Offline.GroupInv
import AVPredictor.Base.Runs
import AVPredictor.Controller.Replay
import AVPredictor.Controller.ReplayRuns
import AVPredictor.Controller.System
import AVPredictor.Controller.InstOrder
import AVPredictor.Controller.LockOrder
import AVPredictor.Feasible.Barriers
import AVPredictor.Base.Scanf
import AVPredictor.Controller.GroupFile
import AVPredictor.Controller.Done
import AVPredictor.Controller.LoadNext
import AVPredictor.Controller.GroupSize
import AVPredictor.Controller.Handover
import AVPredictor.Base.History
import AVPredictor.Monitor.Buffers
import AVPredictor.Controller.Operands
import AVPredictor.Monitor.Threads
import AVPredictor.Offline.LockLine
import AVPredictor.Offline.Kept
import AVPredictor.Offline.LockSet
import AVPredictor.Feasible.Waits
import AVPredictor.Offline.Analysis
import AVPredictor.Base.View
import AVPredictor.Base.Windows
import AVPredictor.Base.Records
import AVPredictor.Offline.Atomicity
import AVPredictor.Offline.Outcome
import AVPredictor.Offline.Founders
import AVPredictor.Offline.LogFormat
import AVPredictor.Offline.Statistics
import AVPredictor.Feasible.Report
import AVPredictor.Feasible.Groups
import AVPredictor.Monitor.Candidates
import AVPredictor.Monitor.LockLog
import AVPredictor.Controller.Driver
import AVPredictor.Controller.Delays
import AVPredictor.Controller.Deadlock
import AVPredictor.Controller.Confirmed
import AVPredictor.Base.Matching
import AVPredictor.Controller.Shown
import AVPredictor.Monitor.Analysed
import AVPredictor.Base.Ranks
import AVPredictor.Offline.Times
import AVPredictor.Controller.Completable
import AVPredictor.Tool
