import Cockroach.Closedts.Tracker
import Cockroach.Raft.CommitIndex
import Cockroach.Raft.AsyncLog
import Cockroach.Raft.SendLoop
import Cockroach.Raft.Probing
import Cockroach.Raft.ConfRestore
import Cockroach.Raft.ProgressWindow
import Cockroach.Raft.ApplySize
import Cockroach.Raft.Fortification
import Cockroach.StoreLiveness.Support
import Cockroach.Rangefeed.Soundness
import Cockroach.Storage.MvccValue
import Cockroach.Storage.EngineComparer
import Cockroach.Gc.Collection
import Cockroach.KvCoord.ProvenCommits
import Cockroach.Kvserver.Spanset
import Cockroach.Util.HlcConcurrency
import Cockroach.Opt.NotNull
import Cockroach.Rowenc.Keyside
