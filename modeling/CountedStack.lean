import CountedStack.Command
import CountedStack.Depth
import CountedStack.FloatBits
import CountedStack.Integer
import CountedStack.Item
import CountedStack.Json.Flaw
import CountedStack.Json.Number
import CountedStack.Json.Record
import CountedStack.Json.Skip
import CountedStack.Json.Text
import CountedStack.Json.Value
import CountedStack.Kind
import CountedStack.Log
import CountedStack.Operation
import CountedStack.Outcome
import CountedStack.Pool
import CountedStack.Session
import CountedStack.Settings
import CountedStack.Stack
import CountedStack.Workload
import CountedStack.Proofs.Accounting
import CountedStack.Proofs.History
import CountedStack.Proofs.Balance
import CountedStack.Proofs.Totals
import CountedStack.Proofs.Json.Number
import CountedStack.Proofs.Json.Text
import CountedStack.Proofs.Json.Value
import CountedStack.Proofs.Json.Record
import CountedStack.Proofs.Collapse
import CountedStack.Proofs.RoundTrip
import CountedStack.Proofs.Peak
import CountedStack.Ledger
import CountedStack.Proofs.Sharing
import CountedStack.Proofs.Threads
import CountedStack.Proofs.Calls
import CountedStack.Proofs.Erasure
import CountedStack.Proofs.Independence
import CountedStack.Proofs.Parametricity
import CountedStack.Proofs.Wrapping
import CountedStack.Proofs.Warnings
import CountedStack.Proofs.Audit
import CountedStack.Proofs.Equality
import CountedStack.Proofs.Json.Layout
import CountedStack.Proofs.Json.Skip
import CountedStack.Proofs.Emptying
import CountedStack.Proofs.Presence
import CountedStack.Proofs.Json.Refusal
import CountedStack.Proofs.Json.FirstFlaw
import CountedStack.Proofs.Malformed
import CountedStack.Proofs.Defaults
import CountedStack.Proofs.Saturation
import CountedStack.Proofs.Names
import CountedStack.Proofs.Slots
import CountedStack.Proofs.Json.Within
import CountedStack.Proofs.Json.Completion
import CountedStack.Proofs.Exactness
