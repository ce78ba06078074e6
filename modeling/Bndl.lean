import Bndl.Net.PeerTable
import Bndl.Net.Contest
import Bndl.Net.Start
import Bndl.Net.Stop
import Bndl.Rmi.Slots
import Bndl.Rmi.NextDownload
import Bndl.Rmi.BlockManager
import Bndl.Rmi.Invariants
import Bndl.Rmi.Exchange
import Bndl.Rmi.Coalesce
import Bndl.Rmi.Returns
import Bndl.Rmi.Failure
import Bndl.Rmi.Removal
import Bndl.Rmi.ServeData
import Bndl.Execute.Job
import Bndl.Execute.Ordering
import Bndl.Execute.Deadlock
import Bndl.Execute.Progress
import Bndl.Execute.Occupancy
import Bndl.Execute.Placement
import Bndl.Compute.Cassandra
