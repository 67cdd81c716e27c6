import MutualBackup.Core.MerkleStreaming
import MutualBackup.Packing.Unpacking
import MutualBackup.Packing.Chain
import MutualBackup.Catalog.Files
import MutualBackup.Catalog.Forecast
import MutualBackup.Catalog.Range
import MutualBackup.Catalog.Splice
import MutualBackup.Catalog.Records
import MutualBackup.Guild.BoundedEvent
import MutualBackup.Guild.WriteAuthority
import MutualBackup.Store.ParityBudget
import MutualBackup.Store.ParityIntegrity
import MutualBackup.Node.CheckpointAgreement
import MutualBackup.Node.RetentionSuccessor
import MutualBackup.Node.LifecycleConvergence
import MutualBackup.Node.CheckpointCoverage
import MutualBackup.Node.CheckpointPacking
import MutualBackup.Node.LaneRealisation
