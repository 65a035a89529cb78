import MapReduce.Types
import MapReduce.Coordinator
import MapReduce.Health
import MapReduce.Library.Runs
import MapReduce.Library.Board
import MapReduce.Proofs.Schedule
import MapReduce.Proofs.Reports
import MapReduce.Proofs.Calls
import MapReduce.Proofs.Phases
import MapReduce.Library.Grouping
import MapReduce.Library.JsonText
import MapReduce.Library.Store
import MapReduce.Library.Wildcard
import MapReduce.Proofs.Recovery
import MapReduce.Codec
import MapReduce.Library.Writers
import MapReduce.Proofs.Barrier
import MapReduce.Proofs.DataPath
import MapReduce.Proofs.Executions
import MapReduce.Proofs.Finality
import MapReduce.Proofs.Liveness
import MapReduce.Proofs.Quiescence
import MapReduce.Proofs.Deliveries
import MapReduce.Proofs.Heartbeats
import MapReduce.Proofs.Leftovers
import MapReduce.Proofs.RoundTrip
import MapReduce.GroupingLoops
import MapReduce.Library.Endless
import MapReduce.Main
import MapReduce.Network
import MapReduce.Proofs.Groupings
import MapReduce.Proofs.Polling
import MapReduce.Proofs.Probing
import MapReduce.Library.Fairness
import MapReduce.Library.Runes
import MapReduce.Plugins
import MapReduce.Proofs.Applications
import MapReduce.Proofs.Stranding
import MapReduce.Library.DepthFirst
import MapReduce.Library.Intervals
import MapReduce.Library.Links
import MapReduce.Porcupine.Bitset
import MapReduce.Porcupine.Checker
import MapReduce.Porcupine.Kv
import MapReduce.Proofs.Bitsets
import MapReduce.Proofs.Checking
import MapReduce.Proofs.FrontEnds
import MapReduce.Proofs.KeyValues
import MapReduce.Labrpc
import MapReduce.Proofs.CallsReturn
