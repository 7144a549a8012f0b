import MiniFunctional.ExactArithmetic
import MiniFunctional.PrintParse
import MiniFunctional.PathCompression
import MiniFunctional.LiteralValues
import MiniFunctional.ExpressionTypes
import MiniFunctional.BackEnds
import MiniFunctional.NodePositions
import MiniFunctional.ScopeConsistency
import MiniFunctional.RuntimeFailures
import MiniFunctional.CursorSafety
import MiniFunctional.GeneratedIr
import MiniFunctional.HeapNodes
import MiniFunctional.DefinitionOrder
import MiniFunctional.SyntaxErrors
import MiniFunctional.EvaluationSafety
import MiniFunctional.FailingRuns
import MiniFunctional.IterationOrder
import MiniFunctional.Formatting
import MiniFunctional.ModuleRuns
import MiniFunctional.CodeSize
import MiniFunctional.Modularity
