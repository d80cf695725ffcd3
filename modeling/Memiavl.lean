import Memiavl.Recommit
import Memiavl.FailedEdit
import Memiavl.LatestVersion
import Memiavl.ImportSafety
import Memiavl.VersionDbRestore
import Memiavl.Cronos.Genesis
import Memiavl.Cronos.Peg
import Memiavl.ExportImport
import Memiavl.WalTail
import Memiavl.ReadOnlyLoad
import Memiavl.ChangeSetModes
import Memiavl.Upgrades
import Memiavl.NonMembershipProof
import Memiavl.RootMultiOrder
import Memiavl.Cronos.SourcePeg
import Memiavl.Cronos.Release
import Memiavl.Interrupt
import Memiavl.Rollback
import Memiavl.Comparator
import Memiavl.ClientCommitInfo
import Memiavl.Cronos.Proposal
import Memiavl.Cronos.BankPrecompile
import Memiavl.Cronos.IcaPrecompile
import Memiavl.Dump
import Memiavl.WalIndex
import Memiavl.SnapshotNames
