import Ministr.Index.HnswSearch
import Ministr.Index.InvertedSearch
import Ministr.Index.CacheTokenSound
import Ministr.Index.PersistSwap
import Ministr.Session.Delta
import Ministr.Session.Persist
import Ministr.Session.Savings
import Ministr.Session.Prefetch
import Ministr.Session.Window
import Ministr.Session.WindowOrder
import Ministr.Session.Isolation
import Ministr.Content.Store
import Ministr.Ingestion.PipelineSound
import Ministr.Ingestion.ChangeDetection
import Ministr.Ingestion.IncrementalSound
import Ministr.Ingestion.Reshape
import Ministr.Content.Distinct
import Ministr.Ingestion.Coalesce
import Ministr.Parser.Markdown
import Ministr.Parser.HtmlRead
import Ministr.Ingestion.Schedule
import Ministr.Ingestion.SymbolIds
import Ministr.Embedding.Transparent
import Ministr.Embedding.Service
import Ministr.Embedding.AstSparse
import Ministr.Daemon.CoordinatorSafe
import Ministr.Daemon.Wakeup
import Ministr.Daemon.Status
import Ministr.Daemon.ManifestAgree
import Ministr.Daemon.RestoreKeeps
import Ministr.Daemon.Sessions
import Ministr.Daemon.Capture
import Ministr.Daemon.CorpusPlace
import Ministr.Auth.Scope
import Ministr.Auth.Redirect
import Ministr.Auth.Base64Url
import Ministr.Bundle.Import
import Ministr.Bridge.Semantic
import Ministr.Bridge.Store
import Ministr.Content.SymbolSearch
import Ministr.Search.Hybrid
import Ministr.Git.ReadBack
import Ministr.Code.CppRead
import Ministr.Code.CppStacks
import Ministr.Bridge.HttpRead
import Ministr.Code.DiagnosticsRead
import Ministr.Ingestion.MerkleNodes
import Ministr.Ingestion.PackageChoice
import Ministr.Ingestion.StorageKeys
import Ministr.Ingestion.Freshness
import Ministr.Mcp.Tasks
import Ministr.Mcp.JobsContract
import Ministr.Mcp.CondenseBound
import Ministr.Mcp.Pagination
import Ministr.Mcp.Timestamp
import Ministr.Scaffold.ClaudeHooks
import Ministr.Service.Impact
import Ministr.Service.DiffImpact
import Ministr.Service.CyclicDependency
import Ministr.Service.SolidClusters
import Ministr.Daemon.RunEngine
