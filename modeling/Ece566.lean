import Ece566.BitField
import Ece566.Wp
import Ece566.P1Correct
import Ece566.P1Lvalue
import Ece566.P1Frame
import Ece566.P1Ranges
import Ece566.P1SliceTable
import Ece566.P1BareFields
import Ece566.P1Errors
import Ece566.P1Lens
import Ece566.P1Lists
import Ece566.P1Packing
import Ece566.P1Reductions
import Ece566.P1Pending
import Ece566.Dominance
import Ece566.DominanceQueries
import Ece566.Walk
import Ece566.CfgQueries
import Ece566.LoopQueries
import Ece566.LlvmIr
import Ece566.SsaForm
import Ece566.Exec
import Ece566.Stutter
import Ece566.Simulation
import Ece566.CsePass
import Ece566.CseSteps
import Ece566.CseRuns
import Ece566.CseSound
import Ece566.CseSsa
import Ece566.CseErasures
import Ece566.CseCursor
import Ece566.CseRemovals
import Ece566.CseNodes
import Ece566.Collapse
import Ece566.BlockExec
import Ece566.CseBlock
import Ece566.LoadElim
import Ece566.LoadSound
import Ece566.LoadLookups
import Ece566.StoreElim
import Ece566.StoreSound
import Ece566.EraseRuns
import Ece566.CseChanges
import Ece566.CseBehaviour
import Ece566.Licm
import Ece566.Hoist
import Ece566.LicmSsa
import Ece566.LicmLoads
import Ece566.LicmSound
import Ece566.LicmRuns
import Ece566.HoistRuns
import Ece566.LicmBehaviour
import Ece566.LicmWriters
import Ece566.Paths
import Ece566.LicmExits
import Ece566.LicmMoves
import Ece566.SinkStore
import Ece566.LateWrites
import Ece566.StoreSinking
import Ece566.StoreRequirements
import Ece566.Worklist
import Ece566.Dce
import Ece566.DceSound
import Ece566.DcePoints
import Ece566.RegisterCode
import Ece566.Precedence
import Ece566.StraightLine
import Ece566.ExprGrammar
import Ece566.ExprCompiler
import Ece566.Flex
import Ece566.Words
import Ece566.P1Lex
import Ece566.ExprScanner
import Ece566.ExprMain
import Ece566.Calc
import Ece566.CalcScanner
