import Osyikkk.LinkedChain
import Osyikkk.PartialRun
import Osyikkk.LittleEndian
import Osyikkk.RootedForest
import Osyikkk.DiskModel
import Osyikkk.Fat32Types
import Osyikkk.Fat32Driver
import Osyikkk.FatCellProofs
import Osyikkk.FatWalkProofs
import Osyikkk.Fat32CallProofs
import Osyikkk.DirectoryTree
import Osyikkk.VolumeCallProofs
import Osyikkk.DriverRuns
import Osyikkk.MoveProofs
import Osyikkk.OwnershipProofs
import Osyikkk.FileMapProofs
import Osyikkk.RebootProofs
import Osyikkk.AtomicityProofs
import Osyikkk.FirstFitProofs
import Osyikkk.NameProofs
import Osyikkk.ParentProofs
import Osyikkk.SelfEntryProofs
import Osyikkk.ReturnCodeProofs
import Osyikkk.SeparatedWords
import Osyikkk.ShellTokens
import Osyikkk.ShellCommands
import Osyikkk.ReadingCommands
import Osyikkk.TokenProofs
import Osyikkk.TokenStoreProofs
import Osyikkk.FileNameProofs
import Osyikkk.DirectoryStackProofs
import Osyikkk.CommandLineProofs
import Osyikkk.PathCommandProofs
import Osyikkk.TreeMoveProofs
import Osyikkk.MoveCommandProofs
import Osyikkk.Console
import Osyikkk.FileDeletionProofs
import Osyikkk.ReadProofs
import Osyikkk.KeyboardDriver
import Osyikkk.LineEditorProofs
import Osyikkk.ModifierKeyProofs
import Osyikkk.PageFrames
import Osyikkk.ReadLineProofs
import Osyikkk.ScreenBoundProofs
import Osyikkk.StandardMemory
import Osyikkk.TextWindow
import Osyikkk.ConsoleTextProofs
import Osyikkk.EchoProofs
import Osyikkk.WriteSizeProofs
import Osyikkk.Inserter
import Osyikkk.InsertionProofs
import Osyikkk.KernelBoot
import Osyikkk.BootProofs
import Osyikkk.CommandOutcomes
import Osyikkk.StackRestoreProofs
import Osyikkk.StackRangeProofs
import Osyikkk.StackLinks
import Osyikkk.NewDirectoryProofs
import Osyikkk.AddressProofs
import Osyikkk.DirectoryRemovalProofs
import Osyikkk.MoveConservation
import Osyikkk.TreeWalk
import Osyikkk.SearchProofs
import Osyikkk.SearchRunProofs
import Osyikkk.WhereisProofs
import Osyikkk.TreeGrowth
import Osyikkk.CopyProofs
import Osyikkk.CopyTreeProofs
import Osyikkk.SlotFilling
import Osyikkk.CopyNamesakeProofs
import Osyikkk.CopyConditionProofs
import Osyikkk.FileArgumentProofs
import Osyikkk.CatProofs
import Osyikkk.CpProofs
import Osyikkk.RmProofs
import Osyikkk.TrimProofs
import Osyikkk.SentinelScan
import Osyikkk.PathScanProofs
import Osyikkk.OrderedCopy
import Osyikkk.ArrayStrings
import Osyikkk.HomeStringProofs
import Osyikkk.StackMachine
import Osyikkk.InterruptStubs
import Osyikkk.InterruptReturnProofs
import Osyikkk.BitFields
import Osyikkk.DescriptorTables
import Osyikkk.KernelEntryProofs
import Osyikkk.PageTranslation
import Osyikkk.NodeStore
import Osyikkk.StoreRepresentation
import Osyikkk.StoreCalls
import Osyikkk.StoreRefinementProofs
import Osyikkk.AtaDrive
import Osyikkk.AtaTransferProofs
import Osyikkk.InterruptController
import Osyikkk.KeyboardLineProofs
import Osyikkk.OwnNames
import Osyikkk.ShellLines
import Osyikkk.LineCalls
import Osyikkk.StoreShell
import Osyikkk.ShellStoreProofs
import Osyikkk.SessionProofs
