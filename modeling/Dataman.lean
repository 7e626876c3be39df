import Dataman.IndexCrash
import Dataman.IndexEnumeration
import Dataman.RecordChain
import Dataman.JournalDamage
import Dataman.FileLockOrder
import Dataman.RecordProtection
import Dataman.StandaloneCommands
import Dataman.SessionRegistry
import Dataman.FlushCommands
import Dataman.LookupPruning
import Dataman.RecordWalks
import Dataman.LookupNavigation
import Dataman.RestoredPositions
import Dataman.CacheCoherence
import Dataman.InsertionUndo
import Dataman.ProtectionFailures
import Dataman.LockPromotion
import Dataman.IndexSurvivors
import Dataman.Directories
import Dataman.BlobNames
import Dataman.BlobRoundTrip
import Dataman.RebuildBlobs
import Dataman.FrameParsers
import Dataman.FragmentationScan
import Dataman.PrefixReader
import Dataman.JournalPaths
import Dataman.IndexKeyLengths
import Dataman.ReleasePositions
import Dataman.ClientRecords
import Dataman.NamedRemoval
import Dataman.StoredKeys
import Dataman.IndexNames
import Dataman.ConnectionReaping
import Dataman.CleanCommands
