import Anodizer.Lib.Loop
import Anodizer.Lib.OneWayDoor
import Anodizer.Publish.Evidence
import Anodizer.Publish.Report
import Anodizer.Publish.Dispatch
import Anodizer.Publish.Gate
import Anodizer.Publish.ExitGate
import Anodizer.Publish.Rollback
import Anodizer.Publish.Carry
import Anodizer.Publish.History
import Anodizer.Publish.YankRecord
import Anodizer.Lib.Json
import Anodizer.Lib.Reader
import Anodizer.Publish.RunSummary
import Anodizer.Publish.Ledger
import Anodizer.Lib.Upsert
import Anodizer.Publish.WriteTwice
import Anodizer.Lib.Kahn
import Anodizer.Lib.Acyclic
import Anodizer.Cargo.Manifest
import Anodizer.Cargo.Plan
import Anodizer.Cargo.EdgeOrder
import Anodizer.Cargo.PublishOrder
import Anodizer.Cargo.PublishRun
import Anodizer.Cargo.YankAccount
import Anodizer.Cargo.Selection
import Anodizer.Cargo.CrateContent
import Anodizer.Lib.Regex
import Anodizer.Template.Blocks
import Anodizer.Template.Builtins
import Anodizer.Template.GoShape
import Anodizer.Template.Native
import Anodizer.Git.TagAgreement
import Anodizer.Tag.ChangeDetect
import Anodizer.Tag.BurnSafety
import Anodizer.Tag.RollbackRetry
import Anodizer.Tag.TagCoherence
import Anodizer.Tag.TrackTags
import Anodizer.Tag.HeadSelect
import Anodizer.Lib.Foremost
import Anodizer.Lib.Words
import Anodizer.Tag.ReleaseMessages
import Anodizer.Tag.BumpInference
import Anodizer.Lib.Cuts
import Anodizer.Changelog.Runs
import Anodizer.Changelog.Subsection
import Anodizer.Changelog.Reread
import Anodizer.Changelog.ReleasedNotes
import Anodizer.VersionFiles.OrderFree
import Anodizer.VersionFiles.Presence
import Anodizer.Split.Completeness
import Anodizer.Lib.ScopedLoop
import Anodizer.PublishOnly.PerCrate
import Anodizer.PublishOnly.Isolation
import Anodizer.PublishOnly.Preserved
import Anodizer.PublishOnly.Verified
import Anodizer.Lib.Overlay
import Anodizer.DefaultsMerge.Configs
import Anodizer.Lib.Attempts
import Anodizer.Release.AssetUpload
import Anodizer.Lib.StableSort
import Anodizer.Lib.Traverse
import Anodizer.Checksum.Selection
import Anodizer.Checksum.Combined
import Anodizer.Checksum.OnlyAdds
import Anodizer.Archive.Plan
import Anodizer.Archive.Entries
import Anodizer.Archive.Run
import Anodizer.Archive.Shipping
import Anodizer.Lib.Replace
import Anodizer.Template.ShellGuard
import Anodizer.Lib.Wildmatch
import Anodizer.Git.Nightly
import Anodizer.Lib.RegexOrder
import Anodizer.Git.TagSplit
import Anodizer.Git.Precedence
import Anodizer.Tag.NextVersion
import Anodizer.Lib.Scan
import Anodizer.Redact.Mask
import Anodizer.Redact.StreamRedacter
import Anodizer.Lib.ScanStates
import Anodizer.Redact.UrlCredentials
import Anodizer.Redact.Places
import Anodizer.Redact.LayeredRedaction
import Anodizer.Bump.VersionReq
import Anodizer.Bump.Requirement
import Anodizer.Bump.Heal
import Anodizer.Bump.ReqParser
import Anodizer.Lib.Checked
import Anodizer.Elf.Probe
import Anodizer.Elf.Agreement
import Anodizer.Lib.Partition
import Anodizer.Changelog.Grouping
import Anodizer.Changelog.GroupRender
import Anodizer.Changelog.Accounting
import Anodizer.Retry.Errors
import Anodizer.Retry.Http
import Anodizer.Retry.StatusSplit
import Anodizer.Changelog.Scope
import Anodizer.Changelog.ScopeCover
import Anodizer.Changelog.Contents
import Anodizer.Changelog.Pieces
import Anodizer.Changelog.KeepsText
import Anodizer.Lib.Assign
import Anodizer.CrateScope.TemplateVars
import Anodizer.CrateScope.VersionVars
import Anodizer.CrateScope.Scope
import Anodizer.CrateScope.ReleaseVersion
import Anodizer.CrateScope.ReleaseGuard
import Anodizer.Artifact.Registry
import Anodizer.Artifact.Manifest
import Anodizer.Artifact.Order
import Anodizer.Artifact.Reload
import Anodizer.Changelog.Merge
import Anodizer.Changelog.MergeInPlace
import Anodizer.Lib.SortedGroups
import Anodizer.Publish.Disambiguate
import Anodizer.Lib.SplitOnce
import Anodizer.Git.CommitRecords
import Anodizer.Lib.Pep440
import Anodizer.Pypi.Pep
import Anodizer.Pypi.KeepsOrder
import Anodizer.VerifyRelease.Readers
import Anodizer.Archive.Placed
import Anodizer.Determinism.Localizes
import Anodizer.Nix.RoundTrip
import Anodizer.Git.RemoteSpellings
import Anodizer.Template.NestingCheck
import Anodizer.Cloudsmith.KeepVersions
import Anodizer.Announce.Rerun
import Anodizer.Parallel.Chunks
import Anodizer.Pipeline.Run
import Anodizer.Fs.AtomicWrite
