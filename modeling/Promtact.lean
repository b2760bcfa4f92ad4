import Promtact.Raft.Safety
import Promtact.Raft.Configuration
import Promtact.Raft.Join
import Promtact.Storage.CrashRecovery
import Promtact.Storage.RaftWalDevice
import Promtact.StateMachine
import Promtact.Raft.Durable
import Promtact.Raft.FailStop
import Promtact.Raft.Peers
import Promtact.Raft.Pending
import Promtact.Raft.Sanity
import Promtact.Raft.Progress
import Promtact.Raft.PreVote
import Promtact.Storage.Lockstep
import Promtact.Storage.FaultDisk
import Promtact.Storage.FileDevice
import Promtact.Dst.Equivalence
import Promtact.Protocol.Untrusted
import Promtact.Protocol.Stream
import Promtact.Storage.SnapshotImage
import Promtact.Backup
import Promtact.Chaos
import Promtact.Dst.Schedule
import Promtact.Dst.Scenario
import Promtact.Adapter.Runner
import Promtact.Raft.Reads.Linear
import Promtact.Protocol.Client
import Promtact.Server.Channels
import Promtact.Raft.Validity
import Promtact.Server.Linear
import Promtact.Server.Contexts
import Promtact.Server.Machine
