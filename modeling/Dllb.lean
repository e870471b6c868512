import Dllb.Lib.Lex
import Dllb.Lib.Bytes
import Dllb.Lib.Prog
import Dllb.Lib.Heap
import Dllb.Lib.Rounding
import Dllb.Lib.Lru
import Dllb.Lib.Reader
import Dllb.Lib.Forest
import Dllb.Lib.Comparator
import Dllb.Lib.Classes
import Dllb.Lib.Parser
import Dllb.Lib.Lines
import Dllb.Lib.Render
import Dllb.Lib.Rounds
import Dllb.Lib.Modularity
import Dllb.Lib.Assignment
import Dllb.Lib.Csv
import Dllb.Lib.Json
import Dllb.Lib.Toml
import Dllb.Lib.TomlTree
import Dllb.Lib.TomlDocument
import Dllb.Core.Value
import Dllb.Core.Rounding
import Dllb.Core.Decimal
import Dllb.Core.Arithmetic
import Dllb.Core.Nearest
import Dllb.Storage.Key
import Dllb.Storage.Kv
import Dllb.Storage.Prefix
import Dllb.Document.Document
import Dllb.Document.Index
import Dllb.Document.IndexOrder
import Dllb.Document.IndexScan
import Dllb.Document.KeySpace
import Dllb.Document.Collection
import Dllb.Document.MsgPack
import Dllb.Document.IndexConsistency
import Dllb.Document.Catalog
import Dllb.Document.Uniqueness
import Dllb.Query.IndexReads
import Dllb.Graph.Store
import Dllb.Graph.Traverse
import Dllb.Graph.EdgeConsistency
import Dllb.Graph.KeyScans
import Dllb.Document.ReadPaths
import Dllb.Document.SchemaValid
import Dllb.Graph.Components
import Dllb.Graph.UnionByRank
import Dllb.Graph.Community
import Dllb.Graph.Representatives
import Dllb.Graph.LabelInvariance
import Dllb.Graph.Exact
import Dllb.Graph.IterationOrder
import Dllb.Graph.Modularity
import Dllb.Graph.PageRank
import Dllb.Graph.Path
import Dllb.Vector.Hnsw
import Dllb.Vector.HnswInvariant
import Dllb.Vector.Live
import Dllb.Vector.SearchSound
import Dllb.Vector.BruteForce
import Dllb.Vector.Recall
import Dllb.Vector.Snapshot
import Dllb.Vector.SnapshotFormat
import Dllb.Vector.SnapshotSafety
import Dllb.Vector.Kernels
import Dllb.Query.Tokenizer
import Dllb.Query.TokenizerRoundTrip
import Dllb.Query.Parser
import Dllb.Query.QueryTokens
import Dllb.Query.ParserRoundTrip
import Dllb.Query.Identifiers
import Dllb.Query.Addressable
import Dllb.Query.Executor
import Dllb.Query.Requests
import Dllb.Query.Reachable
import Dllb.Query.Guarded
import Dllb.Query.Unique
import Dllb.Query.Batch
import Dllb.Query.IndexDdl
import Dllb.Query.Legible
import Dllb.Query.Interleaving
import Dllb.Query.Format
import Dllb.Query.Reads
import Dllb.Query.OrderBy
import Dllb.Query.Debug
import Dllb.Query.GroupBy
import Dllb.Query.Atomicity
import Dllb.Query.Traversal
import Dllb.Query.Frontier
import Dllb.Query.EdgeFrame
import Dllb.Query.Cache
import Dllb.Query.CacheTransparent
import Dllb.Query.CacheBookkeeping
import Dllb.Query.Written
import Dllb.Query.CacheStale
import Dllb.Query.SingleLine
import Dllb.Query.Csv
import Dllb.Query.ErrorJson
import Dllb.Query.Toon
import Dllb.Query.ToonDocument
import Dllb.Server.Connection
import Dllb.Server.Framing
import Dllb.CodeIntel.MetaAst
import Dllb.CodeIntel.Ingest
import Dllb.CodeIntel.IngestQueries
import Dllb.CodeIntel.IngestCoverage
import Dllb.CodeIntel.Diff
import Dllb.CodeIntel.Similarity
import Dllb.CodeIntel.SameShape
import Dllb.CodeIntel.Symmetry
import Dllb.CodeIntel.Clones
import Dllb.CodeIntel.QueryHelpers
import Dllb.CodeIntel.Ancestors
import Dllb.CodeIntel.CodeTokenizer
import Dllb.Lib.Proc
import Dllb.Query.Services
import Dllb.Query.Search
import Dllb.Query.Readable
import Dllb.Query.Mirror
import Dllb.Query.MirrorWrites
import Dllb.Query.SearchRows
import Dllb.Graph.Ranking
import Dllb.Graph.Centrality
import Dllb.Query.Fusion
import Dllb.Query.Hybrid
import Dllb.Query.Watched
import Dllb.Query.MirrorRuns
import Dllb.Document.MsgPackKinds
import Dllb.Query.Beside
import Dllb.Query.LiveGraph
import Dllb.Query.GraphStatements
