import LinkScheduling.Framework.Interaction
import LinkScheduling.Framework.Lines
import LinkScheduling.Framework.Pool
import LinkScheduling.Framework.Rotation
import LinkScheduling.Framework.Transition
import LinkScheduling.Framework.Words
import LinkScheduling.Model.Basic
import LinkScheduling.Model.Calls
import LinkScheduling.Model.FileIO
import LinkScheduling.Model.Protocol
import LinkScheduling.Model.Queue
import LinkScheduling.Model.Scheduling
import LinkScheduling.Model.Server
import LinkScheduling.Model.Threads
import LinkScheduling.Model.Metrics
import LinkScheduling.Model.System
import LinkScheduling.Model.Client
import LinkScheduling.Metatheory.Reading
import LinkScheduling.Metatheory.Discipline
import LinkScheduling.Metatheory.Steps
import LinkScheduling.Metatheory.Ownership
import LinkScheduling.Metatheory.Lifecycle
import LinkScheduling.Metatheory.Log
import LinkScheduling.Metatheory.Header
import LinkScheduling.Metatheory.Names
import LinkScheduling.Metatheory.Paths
import LinkScheduling.Metatheory.Admission
import LinkScheduling.Metatheory.Requests
import LinkScheduling.Metatheory.Tracking
import LinkScheduling.Metatheory.Rounds
import LinkScheduling.Metatheory.Fairness
import LinkScheduling.Metatheory.Accounting
import LinkScheduling.Get.Round
import LinkScheduling.Get.Service
import LinkScheduling.Get.Progress
import LinkScheduling.Get.Delivery
import LinkScheduling.Get.Versions
import LinkScheduling.Put.Upload
import LinkScheduling.Put.Service
import LinkScheduling.Put.Commit
import LinkScheduling.Put.Failure
import LinkScheduling.Put.Store
import LinkScheduling.Model.Monitor
import LinkScheduling.Metatheory.Wakeups
import LinkScheduling.Metatheory.Decoding
import LinkScheduling.Metatheory.Arrival
import LinkScheduling.Model.Config
import LinkScheduling.Config.Loading
import LinkScheduling.Model.JsonParser
import LinkScheduling.Config.Grammar
import LinkScheduling.Config.Cursor
import LinkScheduling.Config.Parsing
import LinkScheduling.Config.Language
import LinkScheduling.Config.Rendering
import LinkScheduling.Model.Analyser
import LinkScheduling.Metatheory.Export
import LinkScheduling.Metatheory.Sockets
import LinkScheduling.Model.Process
import LinkScheduling.Metatheory.Shutdown
import LinkScheduling.Deficit.Accounting
import LinkScheduling.Deficit.Fairness
import LinkScheduling.Put.Exchange
import LinkScheduling.Put.Verdict
import LinkScheduling.Framework.Packing
import LinkScheduling.Get.Steady
import LinkScheduling.Get.Packing
import LinkScheduling.Get.Packets
import LinkScheduling.RoundRobin.Waste
import LinkScheduling.Model.Buffering
import LinkScheduling.Put.Closing
import LinkScheduling.Put.Durability
import LinkScheduling.Metatheory.Segmentation
import LinkScheduling.Metatheory.RequestLanguage
import LinkScheduling.Model.Download
import LinkScheduling.Get.Download
import LinkScheduling.Framework.Selection
import LinkScheduling.Metatheory.ShortestFirst
import LinkScheduling.Model.Workload
import LinkScheduling.Metatheory.Workload
import LinkScheduling.Framework.OrderStatistics
import LinkScheduling.Model.Percentile
import LinkScheduling.Metatheory.Percentile
import LinkScheduling.Metatheory.LineReading
import LinkScheduling.Model.Parser
import LinkScheduling.Config.Execution
import LinkScheduling.Config.Confinement
import LinkScheduling.Framework.Termination
import LinkScheduling.Metatheory.Drain
import LinkScheduling.Framework.Traces
import LinkScheduling.Metatheory.Waiting
import LinkScheduling.Metatheory.Rows
import LinkScheduling.Metatheory.Numbers
import LinkScheduling.Model.Summary
import LinkScheduling.Metatheory.Summary
import LinkScheduling.Metatheory.Answers
import LinkScheduling.Get.Exchange
import LinkScheduling.Get.Copy
import LinkScheduling.Framework.Condvar
import LinkScheduling.Model.Sleeping
import LinkScheduling.Metatheory.Sleeping
import LinkScheduling.Framework.Crew
import LinkScheduling.Metatheory.Liveness
import LinkScheduling.Put.Acknowledged
import LinkScheduling.Framework.Waiting
import LinkScheduling.Metatheory.AtOnce
import LinkScheduling.Model.Socket
import LinkScheduling.Model.Wired
import LinkScheduling.Metatheory.Wires
import LinkScheduling.Metatheory.Kernel
import LinkScheduling.Model.CommandLine
import LinkScheduling.Metatheory.CommandLine
