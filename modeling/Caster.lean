import Caster.Library.Binary64
import Caster.Library.Ledger
import Caster.Emit.Copy
import Caster.Emit.Drop
import Caster.Ownership.Coherence
import Caster.Ownership.InPlace
import Caster.Ownership.Sharing
import Caster.Analyze.Expressions
import Caster.CType
import Caster.Conform.Admitted
import Caster.Emit.Expr
import Caster.Meaning.Arithmetic
import Caster.Meaning.Dots
import Caster.Meaning.FltMeaning
import Caster.Json.Canonical
import Caster.Library.ParserProgress
import Caster.Library.ParserResults
import Caster.MapRuntime.Accounts
import Caster.MapRuntime.Refinement
import Caster.MapRuntime.Runs
import Caster.Meaning.IntMeaning
import Caster.Parse.Expressions
import Caster.Parse.Precedence
import Caster.Analyze.Declarations
import Caster.Driver.ImportOrder
import Caster.Emit.Collect
import Caster.Emit.DeclarationOrder
import Caster.Emit.AllPathsReturn
import Caster.Emit.Collections
import Caster.Emit.InPlaceMethods
import Caster.Emit.Loops
import Caster.Json.DirectAgreement
import Caster.Web.Dispatch
import Caster.Emit.RecordLowerings
import Caster.Analyze.Bindings
import Caster.Emit.BindingAgreement
import Caster.Lex.Lexer
import Caster.Lex.Positions
import Caster.SelfHosting.Lexer
import Caster.SelfHosting.LexerAgreement
import Caster.SelfHosting.LexerDifferences
import Caster.Lex.Lookahead
import Caster.Driver.ModulesApart
import Caster.Lex.ModuleTokens
import Caster.Library.PrecedenceClimbing
import Caster.SelfHosting.Parser
import Caster.SelfHosting.ParserAgreement
import Caster.Adapters.Buf
import Caster.Adapters.BufContents
import Caster.SelfHosting.Recovery
import Caster.SelfHosting.StatementRecovery
import Caster.Adapters.Paths
import Caster.Driver.Disk
import Caster.Library.Marking
import Caster.SelfHosting.ImportPaths
import Caster.SelfHosting.LoaderAgreement
import Caster.Adapters.OnePass
import Caster.Adapters.PathAgreement
import Caster.Adapters.RuntimeAgreement
import Caster.Library.CArithmetic
import Caster.SelfHosting.Emission
import Caster.SelfHosting.ScalarMeaning
import Caster.Emit.RangeLoops
import Caster.Emit.IntLiterals
import Caster.Parse.DotChains
import Caster.Library.Connectives
import Caster.Parse.IsChecks
import Caster.TypeText
import Caster.Emit.Group
import Caster.Emit.MinMax
import Caster.Emit.SplitJoin
import Caster.Analyze.TypeResolution
import Caster.Emit.StringLiterals
import Caster.Driver.RootPlaces
import Caster.Driver.UseLines
import Caster.Emit.Overlay
import Caster.Emit.DynamicElse
import Caster.Emit.Replace
import Caster.Emit.ShapeFill
import Caster.Json.CJson
import Caster.Json.CJsonReading
import Caster.Json.RoundTrip
import Caster.Web.Query
import Caster.Adapters.PathNormal
import Caster.Adapters.PathSplit
import Caster.Adapters.BufHandles
import Caster.Adapters.Sql
import Caster.Adapters.StaleHandles
import Caster.Adapters.Request
import Caster.Adapters.RequestMessage
import Caster.Adapters.UrlSplit
import Caster.Adapters.RequestTask
import Caster.Conform.BoxedForms
import Caster.Emit.TypeTraversals
import Caster.Driver.BuildCommand
import Caster.Driver.Diagnostics
import Caster.Library.Spellings
import Caster.SelfHosting.DiagnosticsJson
import Caster.SelfHosting.ModulePaths
import Caster.Adapters.ResponseDecoding
import Caster.Library.TypeTerms
import Caster.SelfHosting.ExpressionRuns
import Caster.SelfHosting.IsChecks
import Caster.SelfHosting.ParsedTypes
import Caster.SelfHosting.StringLiterals
import Caster.Adapters.Hold
import Caster.Adapters.ProcProgress
import Caster.Emit.OwnedLocals
import Caster.Emit.TidyDrops
import Caster.Parse.TypeGrammar
import Caster.Parse.TypeLookahead
import Caster.Web.Host
