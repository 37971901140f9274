import VllmDual.Split.Accept
import VllmDual.Split.Safe
import VllmDual.Connector.Restart
import VllmDual.Connector.Lease
import VllmDual.Connector.FanIn
import VllmDual.Connector.LiveResults
import VllmDual.Connector.Matched
import VllmDual.Core.FreeQueue
import VllmDual.Core.PoolRuns
import VllmDual.Core.Bundles
import VllmDual.Core.PrefixHits
import VllmDual.Core.SlidingWindow
import VllmDual.Pull.Registered
import VllmDual.Pull.Coalesce
import VllmDual.Push.Signals
import VllmDual.Resident.Registry
import VllmDual.Resident.Refine
import VllmDual.Store.JobRuns
import VllmDual.Store.Usable
import VllmDual.Store.Puts
import VllmDual.Store.Layerwise
import VllmDual.Offload.Laws
import VllmDual.Sched.Queues
import VllmDual.Sched.Repetition
import VllmDual.Sparse.LatentPool
import VllmDual.Engine.StopGrouping
import VllmDual.Engine.Reasoning
import VllmDual.Comm.Broadcast
