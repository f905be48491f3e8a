import Rql.Backend
import Rql.Binary64
import Rql.Catalog
import Rql.Comparison
import Rql.Config
import Rql.Error
import Rql.Json.Basic
import Rql.Json.Document
import Rql.Json.Token
import Rql.Main
import Rql.Numeral
import Rql.Partition.Condition
import Rql.Partition.Explanation
import Rql.Partition.Plan
import Rql.Predicate
import Rql.Registry
import Rql.Request.Parameter
import Rql.Request.Statement
import Rql.Search.Nesting
import Rql.Search.Query
import Rql.Search.Request
import Rql.Session.Arguments
import Rql.Session.Basic
import Rql.Session.Help
import Rql.Session.Run
import Rql.Sql.Condition
import Rql.Sql.Select
import Rql.Statement
import Rql.Table.Basic
import Rql.Table.Json
import Rql.Term.Arguments
import Rql.Term.Basic
import Rql.Term.Reader
import Rql.Text
import Rql.Proofs.Binary64.Rounding
import Rql.Proofs.Catalog.Descriptors
import Rql.Proofs.Catalog.Loading
import Rql.Proofs.Catalog.Registration
import Rql.Proofs.Catalog.Runs
import Rql.Proofs.Formula
import Rql.Proofs.Json.OneLine
import Rql.Proofs.Json.ReadBack
import Rql.Proofs.Json.Records
import Rql.Proofs.Lists
import Rql.Proofs.Literal.WholeNumber
import Rql.Proofs.Outcome
import Rql.Proofs.Partition.Accounting
import Rql.Proofs.Partition.Equality
import Rql.Proofs.Partition.Extension
import Rql.Proofs.Partition.Meaning
import Rql.Proofs.Partition.Mistyped
import Rql.Proofs.Partition.Ordering
import Rql.Proofs.Partition.Placeholders
import Rql.Proofs.Partition.Refusals
import Rql.Proofs.Partition.Rule
import Rql.Proofs.Partition.Selection
import Rql.Proofs.Partition.Serialization
import Rql.Proofs.Partition.Spelling
import Rql.Proofs.Partition.Steps
import Rql.Proofs.Partition.Token
import Rql.Proofs.Predicate.Compilation
import Rql.Proofs.Predicate.Conjuncts
import Rql.Proofs.Predicate.Notation
import Rql.Proofs.Predicate.Truth
import Rql.Proofs.Request.Assurance
import Rql.Proofs.Request.Encoding
import Rql.Proofs.Request.Escapes
import Rql.Proofs.Request.Grouping
import Rql.Proofs.Request.Orders
import Rql.Proofs.Request.Paging
import Rql.Proofs.Request.Patterns
import Rql.Proofs.Request.Reading
import Rql.Proofs.Request.Rearrangement
import Rql.Proofs.Request.Restriction
import Rql.Proofs.Request.RoundTrip
import Rql.Proofs.Search.Folding
import Rql.Proofs.Search.Meaning
import Rql.Proofs.Search.Placement
import Rql.Proofs.Search.Siblings
import Rql.Proofs.Search.Slots
import Rql.Proofs.Session.Agreement
import Rql.Proofs.Session.LineByLine
import Rql.Proofs.Session.Steps
import Rql.Proofs.Sql.Identifiers
import Rql.Proofs.Sql.Literals
import Rql.Proofs.Sql.Meaning
import Rql.Proofs.Sql.Ordering
import Rql.Proofs.Sql.Parentheses
import Rql.Proofs.Sql.Placeholders
import Rql.Proofs.Sql.References
import Rql.Proofs.Sql.Refusals
import Rql.Proofs.Sql.Spelling
import Rql.Proofs.Sql.Steps
import Rql.Proofs.Sql.Token
import Rql.Proofs.Table.Description
import Rql.Proofs.Term.Grammar
import Rql.Proofs.Term.Reading
import Rql.Proofs.Term.Rendering
import Rql.Proofs.Term.Resemblance
import Rql.Proofs.Term.Scan
import Rql.Proofs.Term.Splitting
import Rql.Proofs.Text.Alphanumeric
import Rql.Proofs.Text.Cuts
import Rql.Proofs.Text.Margins
