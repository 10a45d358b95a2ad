import Mvtx.Client.Decision
import Mvtx.Client.Outstanding
import Mvtx.Client.Tags
import Mvtx.Cluster.Conflict
import Mvtx.Cluster.Isolation
import Mvtx.Cluster.Missing
import Mvtx.Cluster.OneRound
import Mvtx.Cluster.Quiescence
import Mvtx.Cluster.Skew
import Mvtx.Cluster.SoloClient
import Mvtx.Cluster.StuckRead
import Mvtx.Cluster.Withdrawals
import Mvtx.Lock.Commute
import Mvtx.Lock.Descent
import Mvtx.Lock.NodeRemove
import Mvtx.Lock.Threads
import Mvtx.Server.AnsweredOnce
import Mvtx.Server.GRPCServer
import Mvtx.Server.ReadPast
import Mvtx.Server.Refusals
import Mvtx.Server.SafeQueue
