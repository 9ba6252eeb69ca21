import BytecodePatch.Body.Bytes
import BytecodePatch.Plan.Manifest
import BytecodePatch.Program.Listing
import BytecodePatch.Proofs.Body.Bytes
import BytecodePatch.Proofs.Build.Invocations
import BytecodePatch.Proofs.Build.Order
import BytecodePatch.Proofs.Plan.Tags
import BytecodePatch.Proofs.Program.Transparency
import BytecodePatch.Proofs.Run.Handles
import BytecodePatch.Proofs.Run.Integrity
import BytecodePatch.Proofs.Run.Reload
import BytecodePatch.Proofs.Run.Sequence
import BytecodePatch.Proofs.Strict.Build
import BytecodePatch.Proofs.Code.Ranges
import BytecodePatch.Proofs.Patch.Blocks
import BytecodePatch.Proofs.Patch.Replacement
import BytecodePatch.Proofs.Flow.Paths
import BytecodePatch.Proofs.Patch.Guard
import BytecodePatch.Proofs.Widening.Expression
import BytecodePatch.Proofs.Widening.Walk
import BytecodePatch.Proofs.Widening.Conversions
import BytecodePatch.Proofs.Run.Edits
import BytecodePatch.Proofs.Search.Landing
import BytecodePatch.Proofs.Patch.Emission
import BytecodePatch.Proofs.Search.Links
import BytecodePatch.Proofs.Search.Loops
import BytecodePatch.Proofs.Run.Searches
import BytecodePatch.Proofs.Code.Stepwise
import BytecodePatch.Proofs.Program.Forms
import BytecodePatch.Proofs.Body.Listing
import BytecodePatch.Proofs.Build.Report
import BytecodePatch.Proofs.Draft.Calls
import BytecodePatch.Proofs.Draft.Resolution
import BytecodePatch.Proofs.Draft.Repetition
import BytecodePatch.Proofs.Plan.Merging
import BytecodePatch.Proofs.Patch.CallArgument
import BytecodePatch.Proofs.Body.Positions
import BytecodePatch.Proofs.Run.Images
import BytecodePatch.Proofs.Flow.Blocks
import BytecodePatch.Proofs.Patch.Hook
import BytecodePatch.Proofs.Patch.Reanchoring
import BytecodePatch.Proofs.Run.Sessions
import BytecodePatch.Proofs.Json.Canonical
import BytecodePatch.Proofs.Plan.Reading
import BytecodePatch.Proofs.Plan.Documents
