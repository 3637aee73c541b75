import Wado.MapsAgree
import Wado.HeapDebug
import Wado.Uri.Resolve
import Wado.Manifest.LockFileReads
import Wado.Temporal.Balance
import Wado.Temporal.WeekDates
import Wado.TraitSolver.Decides
import Wado.Mangle.Injective
import Wado.Json.Read
import Wado.Cbor.Deterministic
import Wado.GraphVisitExact
import Wado.Wir.ReuseRuns
import Wado.Re.Utf8
import Wado.ConstEval.Folding
import Wado.Wir.DeadStores
import Wado.Exhaustive.Reached
import Wado.KeyDispatch.Agree
import Wado.Base64.Codec
import Wado.Escape.RoundTrip
import Wado.IntParse.Lenient
import Wado.Cbor.WellFormed
import Wado.ListSort
import Wado.Nir.IfChainSound
import Wado.Nir.RangeCheckExact
import Wado.Resolve.PathDeps
import Wado.TraitSolver.Targets
import Wado.TraitSolver.IndexedAnswers
import Wado.Mangle.Overlap
import Wado.Gale.TreeWellFormed
import Wado.Gale.CtxRuns
import Wado.Gale.SubsumptionAnswers
import Wado.TraitSolver.OwedExact
import Wado.Re.CharSets
import Wado.Lsp.Positions
import Wado.AffineSlots
