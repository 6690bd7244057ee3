import RowSecurity.Rule.Fingerprint
import RowSecurity.Schema.Error
import RowSecurity.Rule.Basic
import RowSecurity.Install.Dialect
import RowSecurity.Install.Plan
import RowSecurity.Json.Basic
import RowSecurity.Json.Number
import RowSecurity.Json.Reader
import RowSecurity.Json.Writer
import RowSecurity.Policy.Compiler
import RowSecurity.Policy.Error
import RowSecurity.Predicate.Basic
import RowSecurity.Predicate.Evaluation
import RowSecurity.Predicate.Scope
import RowSecurity.Role.Registry
import RowSecurity.Rule.Inspection
import RowSecurity.Rule.Set
import RowSecurity.Schema.Batch
import RowSecurity.Schema.Graph
import RowSecurity.Schema.Cycle
import RowSecurity.Text
import RowSecurity.Proofs.Predicate.Validity
import RowSecurity.Proofs.Role.History
import RowSecurity.Proofs.Schema.History
import RowSecurity.Proofs.Policy.Compilation
import RowSecurity.Proofs.Install.Planning
import RowSecurity.Proofs.Policy.Soundness
import RowSecurity.Proofs.Policy.Build
import RowSecurity.Proofs.Predicate.Evaluation
import RowSecurity.Proofs.Sql.Grammar
import RowSecurity.Proofs.Install.Condition
import RowSecurity.Proofs.Rule.History
import RowSecurity.Proofs.Schema.Lookup
import RowSecurity.Proofs.Install.Storage
import RowSecurity.Proofs.Schema.Cycles
import RowSecurity.Proofs.Rule.Fingerprint
import RowSecurity.Proofs.Schema.Batch
import RowSecurity.Proofs.Predicate.WellFormed
import RowSecurity.Proofs.Stored
import RowSecurity.Proofs.Predicate.Scope
import RowSecurity.Proofs.Predicate.Kleene
import RowSecurity.Proofs.Predicate.Reads
import RowSecurity.Proofs.Install.Collision
import RowSecurity.Proofs.Policy.Commit
import RowSecurity.Proofs.Install.Statement
import RowSecurity.Proofs.Install.Group
import RowSecurity.Proofs.Rule.Text
import RowSecurity.Proofs.Json.Binary64
import RowSecurity.Proofs.Schema.Nullability
import RowSecurity.Proofs.Row.Comparison
import RowSecurity.Proofs.Schema.DepthFirst
import RowSecurity.Proofs.Json.Rearranged
import RowSecurity.Proofs.Json.Writer
import RowSecurity.Proofs.Listed
import RowSecurity.Proofs.Outcome
import RowSecurity.Proofs.Row.Equality
import RowSecurity.Proofs.Schema.Loop
import RowSecurity.Proofs.Schema.Report
import RowSecurity.Proofs.Schema.Search
