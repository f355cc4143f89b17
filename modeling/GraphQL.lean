import GraphQL.Main
import GraphQL.Proofs.Reading.RoundTrip
import GraphQL.Proofs.Document.Nesting
import GraphQL.Proofs.Reading.DeepDocument
import GraphQL.Proofs.Reading.Positions
import GraphQL.Proofs.Input.Substitution
import GraphQL.Proofs.Input.Bound
import GraphQL.Proofs.Input.SuppliedNotices
import GraphQL.Proofs.Schema.Defaults
import GraphQL.Proofs.Schema.Declared
import GraphQL.Proofs.Schema.Decided
import GraphQL.Proofs.Execution.Calls
import GraphQL.Proofs.Execution.Returns
import GraphQL.Proofs.Execution.Reception
import GraphQL.Proofs.Execution.Schedule
import GraphQL.Proofs.Execution.Order
import GraphQL.Proofs.Execution.Accounting
import GraphQL.Proofs.Execution.Objects
import GraphQL.Proofs.Input.Invariants
import GraphQL.Proofs.Input.Places
import GraphQL.Proofs.Input.Report
import GraphQL.Proofs.Input.Verdict
import GraphQL.Proofs.Execution.Responses
import GraphQL.Proofs.Value.Positions
import GraphQL.Proofs.Execution.Placement
import GraphQL.Proofs.Execution.Shape
import GraphQL.Proofs.Execution.Containment
import GraphQL.Proofs.Execution.Merging
import GraphQL.Proofs.Text.WellFormed
import GraphQL.Proofs.Reading.StringLiteral
import GraphQL.Proofs.Reading.Refusal
import GraphQL.Proofs.Report.WellFormed
import GraphQL.Proofs.Input.WellFormed
import GraphQL.Proofs.Execution.WellFormed
import GraphQL.Proofs.Schema.Merging
import GraphQL.Proofs.Schema.Stored
import GraphQL.Proofs.Schema.Consistent
import GraphQL.Proofs.Schema.WrittenType
import GraphQL.Proofs.Reading.WrittenType
import GraphQL.Proofs.Input.Binding
import GraphQL.Proofs.Input.ReorderedArguments
import GraphQL.Proofs.Schema.Integer
import GraphQL.Proofs.Execution.Aliasing
import GraphQL.Proofs.Things.Command
import GraphQL.Proofs.Reading.LongestNumber
import GraphQL.Proofs.Execution.PathText
import GraphQL.Proofs.Reading.BalancedDocument
