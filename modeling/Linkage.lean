import Linkage.Main
import Linkage.ReservedWords
import Linkage.Proofs.LinkOrder.Outcome
import Linkage.Proofs.LinkOrder.Repetition
import Linkage.Proofs.Archive.RoundTrip
import Linkage.Proofs.Interface.Consistency
import Linkage.Proofs.Interface.RoundTrip
import Linkage.Proofs.Cache.Effects
import Linkage.Proofs.Command.CachedOrder
import Linkage.Proofs.Linker.Limits
import Linkage.Proofs.Linker.Minified
import Linkage.Proofs.Linker.Origins
import Linkage.Proofs.Linker.Passages
import Linkage.Proofs.Linker.Restriction
import Linkage.Proofs.Program.Idempotence
import Linkage.Proofs.SourceMap.RoundTrip
import Linkage.Proofs.Position.Registered
import Linkage.Proofs.Archive.Truncation
import Linkage.Proofs.Cache.Completeness
import Linkage.Proofs.Program.Pieces
import Linkage.Proofs.Program.Runs
import Linkage.Proofs.Program.Stripped
import Linkage.Proofs.LinkOrder.Requests
import Linkage.Proofs.Position.Places
import Linkage.Proofs.Position.Checking
import Linkage.Proofs.Cache.Reopening
import Linkage.Proofs.Command.Arguments
import Linkage.Proofs.Selection.Scoping
import Linkage.Proofs.Selection.Steps
import Linkage.Proofs.Position.Exhaustion
import Linkage.Proofs.Selection.Listing
import Linkage.Proofs.SourceMap.Words
