import CoilHub.CommandLine.Bridge
import CoilHub.Session
import CoilHub.Main
import CoilHub.Proofs.Interleaving.Frame
import CoilHub.Proofs.Interleaving.Turned
import CoilHub.Proofs.Interleaving.Turn
import CoilHub.Proofs.Interleaving.Locks
import CoilHub.Proofs.Refresh.Inversion
import CoilHub.Proofs.Refresh.Progress
import CoilHub.Proofs.Refresh.Calls
import CoilHub.Proofs.Refresh.Diary
import CoilHub.Proofs.Cache.Revisions
import CoilHub.Proofs.Entities.Availability
import CoilHub.Proofs.Interleaving.Fairness
import CoilHub.Proofs.Interleaving.Clock
import CoilHub.Proofs.Shutdown.Ending
import CoilHub.Proofs.Shutdown.Completion
import CoilHub.Proofs.Shutdown.Refusals
import CoilHub.Proofs.Shutdown.Abandonment
import CoilHub.Proofs.Refresh.Attempts
import CoilHub.Proofs.Interleaving.Phases
import CoilHub.Proofs.Interleaving.Exclusion
import CoilHub.Proofs.Interleaving.Steady
import CoilHub.Proofs.Cache.Agreement
import CoilHub.Proofs.Cache.Contents
import CoilHub.Proofs.Cache.Refreshed
import CoilHub.Proofs.Entities.Display
import CoilHub.Proofs.Interleaving.Service
import CoilHub.Proofs.Interleaving.Precedence
import CoilHub.Proofs.Writes.Effect
import CoilHub.Proofs.Writes.Order
import CoilHub.Proofs.Refresh.Verdicts
import CoilHub.Proofs.Refresh.Rehearsal
import CoilHub.Proofs.Refresh.Isolation
import CoilHub.Proofs.Refresh.Sightings
import CoilHub.Proofs.Updates.Requests
import CoilHub.Proofs.Updates.Doorbell
import CoilHub.Proofs.Updates.Attention
import CoilHub.Proofs.Text.Trimming
import CoilHub.Proofs.Numbers.Digits
import CoilHub.Proofs.Numbers.Decimals
import CoilHub.Proofs.Numbers.Nearest
import CoilHub.Proofs.Numbers.Shortest
import CoilHub.Proofs.Numbers.Numerals
import CoilHub.Proofs.Numbers.Notation
import CoilHub.Proofs.Numbers.Reading
import CoilHub.Proofs.Numbers.Grammar
import CoilHub.Proofs.Numbers.Whole
import CoilHub.Proofs.Values.Reread
import CoilHub.Proofs.Values.Parsing
import CoilHub.Proofs.Json.Grammar
import CoilHub.Proofs.Json.Scanning
import CoilHub.Proofs.Json.Scalars
import CoilHub.Proofs.Json.RoundTrip
import CoilHub.Proofs.Json.Accuracy
import CoilHub.Proofs.Json.Doubles
import CoilHub.Proofs.Json.Leading
import CoilHub.Proofs.Json.Range
import CoilHub.Proofs.Json.Numerals
import CoilHub.Proofs.Json.Legible
import CoilHub.Proofs.Values.Documents
import CoilHub.Proofs.Values.Decoding
import CoilHub.Proofs.Configuration.Layers
import CoilHub.Proofs.Configuration.Definitions
import CoilHub.Proofs.Configuration.Gaps
import CoilHub.Proofs.Configuration.Choices
import CoilHub.Proofs.Cache.Growth
import CoilHub.Proofs.Entities.Roll
import CoilHub.Proofs.Interleaving.Solo
import CoilHub.Proofs.Refresh.Undisturbed
import CoilHub.Proofs.Interleaving.Evolution
import CoilHub.Proofs.Refresh.Storings
import CoilHub.Proofs.Entities.Broadcasts
import CoilHub.Proofs.Entities.Reckoning
import CoilHub.Proofs.Entities.Versions
import CoilHub.Proofs.CommandLine.Lookup
import CoilHub.Proofs.CommandLine.Invocation
import CoilHub.Proofs.CommandLine.Reading
import CoilHub.Proofs.CommandLine.Writing
import CoilHub.Proofs.Retry.Conclusion
import CoilHub.Proofs.Cache.Newest
import CoilHub.Proofs.Listeners.History
import CoilHub.Proofs.Refresh.Interests
import CoilHub.Proofs.Refresh.Counters
import CoilHub.Proofs.Pump.Script
import CoilHub.Proofs.Pump.ReadLog
