import Xetcas.Proofs.MutualExclusion
import Xetcas.Proofs.Pruning
import Xetcas.Proofs.Durability
import Xetcas.Contracts.Messages
import Xetcas.Contracts.Validate
import Xetcas.Lib.Cumulative
import Xetcas.Reconstruction
import Xetcas.Proofs.Geometry
import Xetcas.Proofs.Planner
import Xetcas.HttpRange
import Xetcas.Error
import Xetcas.Upstream
import Xetcas.Index
import Xetcas.DedupShard
import Xetcas.Filestream
import Xetcas.Routes.Chunks
import Xetcas.Routes.Lfs
import Xetcas.Routes.Reconstructions
import Xetcas.Routes.Shards
import Xetcas.Routes.ShardUpload
import Xetcas.Routes.XorbUpload
import Xetcas.Server
import Xetcas.Lib.Counting
import Xetcas.Proofs.Residency
import Xetcas.Formats.Hash
import Xetcas.Formats.Xorb
import Xetcas.Formats.Documented
import Xetcas.Proofs.Provenance
import Xetcas.Proofs.Agreement
import Xetcas.Proofs.Layout
import Xetcas.Proofs.Linkage
import Xetcas.Proofs.Registration
import Xetcas.Proofs.Dedup
import Xetcas.Proofs.Fetch
import Xetcas.Proofs.Reconstructable
import Xetcas.Proofs.Content
import Xetcas.Proofs.Downloads
import Xetcas.Proofs.Frozen
import Xetcas.Proofs.Verified
import Xetcas.Proofs.Identity
import Xetcas.Proofs.FrameBytes
import Xetcas.Proofs.EndOfFile
import Xetcas.Proofs.ChunkGuard
import Xetcas.Proofs.FetchExact
import Xetcas.Proofs.Minimal
import Xetcas.Proofs.Truthful
import Xetcas.Proofs.Acceptance
import Xetcas.Proofs.ProbeAnswer
import Xetcas.Proofs.Reupload
import Xetcas.Proofs.Skipped
import Xetcas.Proofs.Resubmit
import Xetcas.Proofs.Idempotence
import Xetcas.Proofs.Health
import Xetcas.Proofs.RecordGeometry
import Xetcas.Proofs.RangeGrammar
import Xetcas.Lib.Components
import Xetcas.Routes.Git
import Xetcas.Proofs.CgiOutput
import Xetcas.Proofs.RepoPaths
import Xetcas.Contracts.Schema
import Xetcas.Contracts.GoValidate
import Xetcas.Lib.Ascii
import Xetcas.Proofs.SchemaEnforced
import Xetcas.Lib.FileTree
import Xetcas.Routes.GitDispatch
import Xetcas.Proofs.Staging
import Xetcas.Proofs.FirstTouch
import Xetcas.Lib.Channel
import Xetcas.Routes.LfsDownload
import Xetcas.Service
import Xetcas.Proofs.Delivery
import Xetcas.Proofs.DecodeTasks
import Xetcas.Proofs.HangUps
import Xetcas.Proofs.Serving
import Xetcas.Proofs.UploadProgress
import Xetcas.Proofs.Stability
import Xetcas.Lib.Wire
import Xetcas.Lib.WireMessage
import Xetcas.Contracts.Records
import Xetcas.Database
import Xetcas.Proofs.Blobs
import Xetcas.Proofs.Authorization
import Xetcas.Proofs.Wholeness
import Xetcas.Lib.Routing
import Xetcas.Routes.Router
import Xetcas.Proofs.MintedUrls
import Xetcas.Proofs.LfsBatch
import Xetcas.Contracts.Documents
import Xetcas.Lib.Lines
import Xetcas.Proofs.CgiTranslation
