import Winlift.AcceptedFiles
import Winlift.Appended
import Winlift.Binding
import Winlift.CSem.Descriptors
import Winlift.CSem.I386
import Winlift.CSem.Loop
import Winlift.CSem.Memory
import Winlift.CSem.Rights
import Winlift.CSem.Runs
import Winlift.Command
import Winlift.Convertible
import Winlift.ExitSpec
import Winlift.FilesSpec
import Winlift.FixtureConverts
import Winlift.FixtureRoundTrip
import Winlift.FixtureRuns
import Winlift.FormatLength
import Winlift.HeapInv
import Winlift.HeapStore
import Winlift.ImagePreserved
import Winlift.ImportEnds
import Winlift.LoadRules
import Winlift.Main
import Winlift.MkMiniPe
import Winlift.NumberSpec
import Winlift.ProgramEntry
import Winlift.Protections
import Winlift.ReallocSpec
import Winlift.Rejection
import Winlift.RelocFormat
import Winlift.RelocSpec
import Winlift.RelocWalk
import Winlift.RvaSpec
import Winlift.ShimEntry
import Winlift.ShimFiles
import Winlift.ShimModuleHandle
import Winlift.ShimProtect
import Winlift.ShimWriteFile
import Winlift.StartupKept
import Winlift.StartupSpec
import Winlift.SymbolSpec
import Winlift.TlsSpec
import Winlift.WriteOutcome
