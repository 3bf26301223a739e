import Lte.Runs
import Lte.Message
import Lte.Client
import Lte.PacketHandler
import Lte.BatteryAgreement
import Lte.EventLoop
import Lte.Kick
import Lte.MainLoop
import Lte.Reports
import Lte.Attach
import Lte.AttachRuns
import Lte.Cuts
import Lte.Framing
import Lte.Broadcast
import Lte.Transfer
import Lte.Shutdown
import Lte.Histories
import Lte.SignalEvents
import Lte.Isolation
import Lte.BatteryPhases
import Lte.Hashmap
import Lte.Registry
import Lte.Inactivity
import Lte.LeftoverHeap
import Lte.Download
import Lte.Teardown
import Lte.ServingCell
import Lte.SendLoop
import Lte.HashmapHeap
import Lte.HeapChains
import Lte.HeapTables
import Lte.RegistryHeap
import Lte.HeapIteration
import Lte.HeapClear
import Lte.HeapServer
import Lte.Mixing
import Lte.MurmurHash3
import Lte.HashmapSizes
import Lte.Projection
import Lte.Sessions
import Lte.SignalCourse
import Lte.Protocol
import Lte.Answers
import Lte.HeapFrees
import Lte.HeapRace
