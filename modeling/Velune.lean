import Velune.Ignore.Proofs.Links
import Velune.Permissions.Proofs.Gate
import Velune.Rollback.Proofs.Undisturbed
import Velune.Commands.Proofs.Inline
import Velune.Commands.Proofs.Spelling
import Velune.Engine.Driver
import Velune.Engine.Proofs.Machine
import Velune.Engine.Proofs.Budget
import Velune.Engine.Proofs.ToolSchema
import Velune.ToolLoop.Proofs.Routes
import Velune.ToolLoop.Proofs.Transcript
import Velune.Mcp.Proofs.Config
import Velune.Providers.Proofs.Cache
import Velune.Providers.Proofs.Store
import Velune.Cli.Mermaid
import Velune.Memory.Retrieve
import Velune.Memory.Proofs.Sessions
import Velune.Memory.Proofs.Compaction
import Velune.Intelligence.Proofs.Rebuild
import Velune.Knowledge.Subgraph
import Velune.Core.Proofs.Trust
import Velune.Providers.Proofs.Verifier
import Velune.Providers.Proofs.Registry
import Velune.Intelligence.Proofs.Engine
import Velune.Core.Proofs.TaskRegistry
import Velune.Core.Proofs.JobRegistry
import Velune.Memory.Flush
import Velune.Memory.Proofs.Episodic
import Velune.Memory.Proofs.EmbeddingPipeline
import Velune.Memory.Proofs.SqlitePool
import Velune.Kernel.Proofs.Lifecycle
import Velune.Events.Proofs.CognitiveBus
import Velune.Sessions.Proofs.Store
import Velune.Sessions.Proofs.Import
import Velune.Ignore.Proofs.Whole
import Velune.Execution.Proofs.Planner
import Velune.Execution.HunkReview
import Velune.EditFormats.Proofs.UDiff
import Velune.EditFormats.Proofs.OneBlock
import Velune.Engine.Proofs.Arguments
import Velune.Engine.Proofs.Secrets
import Velune.Engine.Proofs.ProviderActing
import Velune.Providers.Proofs.Retrying
import Velune.Providers.Proofs.ToolCalls
import Velune.Repository.Proofs.IncrementalIndexer
import Velune.Repository.Scanner
import Velune.Repository.TreeSitter
import Velune.Repository.Indexer
import Velune.Council.Proofs.Status
import Velune.Council.Proofs.Citing
import Velune.Context.Proofs.Assembly
import Velune.Context.Proofs.Budget
import Velune.Context.Proofs.Snapshot
import Velune.Mcp.Proofs.Bare
import Velune.Mcp.Server
import Velune.Permissions.Plans
import Velune.Tools.Proofs.GitProviders
import Velune.Tools.Proofs.Search
import Velune.Retrieval.Hybrid
import Velune.Retrieval.Tokens
import Velune.Recovery.Archive
import Velune.Lifecycle.Proofs.Journal
