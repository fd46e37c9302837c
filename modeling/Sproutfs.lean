import Sproutfs.Lib.Bytes
import Sproutfs.Lib.Disk
import Sproutfs.Lib.Tiling
import Sproutfs.Lib.CasStore
import Sproutfs.Lib.Machine
import Sproutfs.Lib.Overlay
import Sproutfs.Journal.Format
import Sproutfs.Journal.Ring
import Sproutfs.Journal.Writer
import Sproutfs.Journal.World
import Sproutfs.Journal.Reader
import Sproutfs.Journal.Invariant
import Sproutfs.Journal.Proofs.FormatProofs
import Sproutfs.Journal.Proofs.PlaceProofs
import Sproutfs.Journal.Proofs.PositionProofs
import Sproutfs.Journal.Proofs.RingProofs
import Sproutfs.Journal.Proofs.HeaderProofs
import Sproutfs.Journal.Proofs.AnchorProofs
import Sproutfs.Journal.Proofs.IndexProofs
import Sproutfs.Journal.Proofs.StepProofs
import Sproutfs.Journal.Proofs.DurabilityProofs
import Sproutfs.Journal.Proofs.RingSafetyProofs
import Sproutfs.Journal.Proofs.HistoryProofs
import Sproutfs.Journal.Proofs.AnsweredProofs
import Sproutfs.Journal.Proofs.ReadFenceProofs
import Sproutfs.Control.Record
import Sproutfs.Control.Client
import Sproutfs.Control.System
import Sproutfs.Control.Invariant
import Sproutfs.Control.Proofs.CallProofs
import Sproutfs.Control.Proofs.SystemProofs
import Sproutfs.Control.Proofs.FencingProofs
import Sproutfs.Control.Proofs.OpenProofs
import Sproutfs.Control.Proofs.PinProofs
import Sproutfs.Lineage.Store
import Sproutfs.Lineage.System
import Sproutfs.Lineage.Invariant
import Sproutfs.Lineage.Proofs.RecordProofs
import Sproutfs.Lineage.Proofs.FrameProofs
import Sproutfs.Lineage.Proofs.ChangeProofs
import Sproutfs.Lineage.Proofs.StepProofs
import Sproutfs.Lineage.Proofs.PublishProofs
import Sproutfs.Lineage.Proofs.ForkProofs
import Sproutfs.Lineage.Proofs.SweepProofs
import Sproutfs.Lineage.Proofs.DanglingProofs
import Sproutfs.Lineage.Proofs.ReleaseProofs
import Sproutfs.Lineage.Proofs.ReuseProofs
import Sproutfs.Membership.Membership
import Sproutfs.Membership.Change
import Sproutfs.Membership.Store
import Sproutfs.Membership.Controller
import Sproutfs.Membership.Fleet
import Sproutfs.Membership.Proofs.ChainProofs
import Sproutfs.Membership.Proofs.UpdateProofs
import Sproutfs.Membership.Proofs.LetGoProofs
import Sproutfs.HostJournal.Cover
import Sproutfs.HostJournal.Pages
import Sproutfs.HostJournal.Flush
import Sproutfs.HostJournal.Proofs.PlacementProofs
import Sproutfs.HostJournal.Proofs.CoverProofs
import Sproutfs.HostJournal.Proofs.PageProofs
import Sproutfs.HostJournal.Proofs.ChoiceProofs
import Sproutfs.HostJournal.Proofs.ChoiceStepProofs
import Sproutfs.HostJournal.Proofs.ReplayProofs
import Sproutfs.HostJournal.Proofs.ContentProofs
import Sproutfs.HostJournal.Proofs.ContentStepProofs
import Sproutfs.Lib.TokenBucket
import Sproutfs.Resource.WriteBudget
import Sproutfs.Resource.Proofs.WriteBudgetProofs
import Sproutfs.Resource.Budget
import Sproutfs.Resource.Proofs.BudgetProofs
import Sproutfs.Resource.Proofs.BudgetStepProofs
import Sproutfs.Resource.Proofs.FairnessProofs
import Sproutfs.Lib.Tally
import Sproutfs.Peer.Pool
import Sproutfs.Peer.Proofs.PoolProofs
import Sproutfs.Peer.Proofs.AcquireProofs
import Sproutfs.Peer.Proofs.TripProofs
import Sproutfs.Peer.Proofs.StepProofs
import Sproutfs.Peer.Proofs.AccountProofs
import Sproutfs.Host.JournalDisks
import Sproutfs.Host.Proofs.ReportProofs
import Sproutfs.Membership.Proofs.DecideProofs
import Sproutfs.Membership.Proofs.NewProofs
import Sproutfs.Membership.Proofs.ValidProofs
import Sproutfs.Membership.Proofs.LifeProofs
import Sproutfs.Membership.Proofs.SettleProofs
import Sproutfs.Membership.JournalFleet
import Sproutfs.Membership.Proofs.WriterProofs
import Sproutfs.Membership.Proofs.JournalFleetProofs
import Sproutfs.DiskCache.Format
import Sproutfs.Framer.Proofs.StreamProofs
import Sproutfs.Volume.ForkPoint
import Sproutfs.Volume.Proofs.ForkPointProofs
import Sproutfs.Lib.JoinTree
import Sproutfs.Volume.Extents
import Sproutfs.Volume.Proofs.ExtentsProofs
import Sproutfs.Volume.Proofs.OverlayReadProofs
import Sproutfs.Volume.Proofs.VolumeProofs
import Sproutfs.Checkpoint.Index
import Sproutfs.Checkpoint.PageTable
import Sproutfs.Checkpoint.Proofs.PageTableProofs
import Sproutfs.Checkpoint.Locate
import Sproutfs.Checkpoint.Proofs.LocateProofs
import Sproutfs.Volume.Locate
import Sproutfs.Volume.Proofs.LocateProofs
import Sproutfs.DiskCache.Proofs.FormatProofs
import Sproutfs.DiskCache.Proofs.RoomProofs
import Sproutfs.Checkpoint.Proofs.ScanProofs
import Sproutfs.Journal.Proofs.CodecProofs
import Sproutfs.Cluster.Proofs.RepairProofs
import Sproutfs.Spill.Proofs.BoundProofs
import Sproutfs.Lib.Runs
import Sproutfs.VmMemory.PageRanges
import Sproutfs.VmMemory.Proofs.PageRangesProofs
import Sproutfs.Cluster.Distance
import Sproutfs.Cluster.Proofs.DistanceProofs
import Sproutfs.Checkpoint.Keys
import Sproutfs.Checkpoint.Proofs.KeyProofs
import Sproutfs.Ctxsync.Proofs.RWMutexProofs
