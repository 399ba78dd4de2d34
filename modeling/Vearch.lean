import Vearch.Index.Theorems.Markers
import Vearch.Index.Theorems.CompositeRange
import Vearch.Engine.Theorems.RocksdbBitmap
import Vearch.Engine.Theorems.Upkeep
import Vearch.Engine.Theorems.Requests
import Vearch.Router.Theorems.Term
import Vearch.Router.Theorems.Expansion
import Vearch.Router.Theorems.Auth
import Vearch.Master.Theorems.UserService
import Vearch.Master.Theorems.DistLock
import Vearch.Master.Theorems.Restore
import Vearch.Master.Theorems.Names
import Vearch.Master.Theorems.Members
import Vearch.Master.Theorems.Candidates
import Vearch.Master.Theorems.IndexChange
import Vearch.Client.Theorems.Cache
import Vearch.Vector.Theorems.Acknowledged
import Vearch.Vector.Theorems.Alignment
import Vearch.Vector.Theorems.Coverage
import Vearch.Vector.Theorems.Recovery
import Vearch.Ps.Theorems.Commit
import Vearch.Ps.Theorems.SequenceNumber
import Vearch.Ps.Theorems.Snapshot
import Vearch.Ps.Theorems.Installation
import Vearch.Ps.Theorems.Bulk
import Vearch.Client.Theorems.Fanout
import Vearch.Client.Theorems.Paging
import Vearch.Ps.Theorems.Resolver
import Vearch.Ps.Theorems.Backup
import Vearch.Ps.Theorems.RefCountServers
import Vearch.Vector.Theorems.Intersection
import Vearch.Vector.Theorems.Flat
import Vearch.Ivf.Theorems.Scanner
import Vearch.Ivf.Theorems.Atomicity
import Vearch.Ivf.Theorems.Dump
import Vearch.Router.Theorems.StringArray
import Vearch.Master.Theorems.Ranges
import Vearch.Router.Theorems.ParseFilter
import Vearch.Router.Theorems.Exact
import Vearch.Master.Theorems.Replicas
import Vearch.Client.Theorems.Execute
import Vearch.Ps.Theorems.RefCountManager
import Vearch.Ps.Theorems.RefCountLedger
import Vearch.Ps.Theorems.Sync
import Vearch.Master.Theorems.BackupSpace
import Vearch.Master.Theorems.RestoreTasks
import Vearch.Storage.Theorems.Decode
import Vearch.Master.Theorems.Records
import Vearch.Index.Theorems.Plan
import Vearch.Engine.Theorems.GetDoc
