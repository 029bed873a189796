import Devscout.Freshness.Serialized
import Devscout.Freshness.Unserialized
import Devscout.ManifestMerge
import Devscout.Graph.Recovery
import Devscout.CSharp.Conditional
import Devscout.CSharp.Offsets
import Devscout.CSharp.Condition
import Devscout.CSharp.Symbols
import Devscout.CompilerFacts.Vouched
import Devscout.Semantic.Precedence
import Devscout.Resolve.Hops
import Devscout.Resolve.Statistics
import Devscout.Rust.FixedPoint
import Devscout.Rust.WellFormed
import Devscout.Rust.GlobCache
import Devscout.Export.OneGeneration
import Devscout.Query.Routes
import Devscout.Query.Imported
import Devscout.Query.Symbol
import Devscout.Hook.Delivered
import Devscout.Template.Exact
import Devscout.Ts.Barrels
import Devscout.Ts.Workspaces
import Devscout.Ts.Pnpm
import Devscout.Ts.PackageMap
import Devscout.Resolve.LeastVocabulary
import Devscout.Semantic.FactSet
import Devscout.Semantic.TypeIds
import Devscout.Transport.Flattened
import Devscout.Ts.BuildOutput
import Devscout.Ts.Aliases
import Devscout.Resolve.GuessKey
import Devscout.Rust.Ambiguity
import Devscout.Resolve.BaseWalk
import Devscout.Resolve.Calls
import Devscout.Resolve.Canonical
import Devscout.Resolve.ArityPasses
import Devscout.Query.Next
import Devscout.Query.Suppressed
import Devscout.Template.Scan
import Devscout.Lib.Related
import Devscout.Template.Lines
import Devscout.Template.Labels
import Devscout.Template.Lex
import Devscout.Template.Lines
import Devscout.HookInstall
import Devscout.Transport.Secrets
import Devscout.ProjectGraph
import Devscout.Audit.Order
import Devscout.Query.Offer
import Devscout.Hook.Accounts
import Devscout.Transport.Refused
import Devscout.Csproj
import Devscout.Query.NextLine
import Devscout.Query.Rank
import Devscout.ProjectScan
import Devscout.Registry
import Devscout.RegistryRead
import Devscout.Query.Suggest
