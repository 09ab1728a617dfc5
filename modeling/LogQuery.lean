import LogQuery.Main
import LogQuery.Search.Sample
import LogQuery.Search.Simplified
import LogQuery.Proofs.Query.Assembly
import LogQuery.Proofs.Query.Construction
import LogQuery.Proofs.Query.Meaning
import LogQuery.Proofs.Query.Nested
import LogQuery.Proofs.Query.Placement
import LogQuery.Proofs.Query.WellFormed
import LogQuery.Proofs.Json.Alike
import LogQuery.Proofs.Query.Encoding
import LogQuery.Proofs.Search.RequestBody
import LogQuery.Proofs.Computations
import LogQuery.Proofs.Http.Causes
import LogQuery.Proofs.Http.Failover
import LogQuery.Proofs.Http.Faults
import LogQuery.Proofs.Search.FlatSearch
import LogQuery.Proofs.Search.QueryCalls
import LogQuery.Proofs.Search.Sessions
import LogQuery.Proofs.Search.IndexNames
import LogQuery.Proofs.Json.Canonical
import LogQuery.Proofs.Json.Parts
import LogQuery.Proofs.Record.Properties
import LogQuery.Proofs.CommandLine.Demands
import LogQuery.Proofs.CommandLine.Searching
import LogQuery.Proofs.Http.Authorization
import LogQuery.Proofs.Settings.Layers
import LogQuery.Proofs.Settings.EnvironmentText
import LogQuery.Proofs.Search.CannedTasks
import LogQuery.Proofs.Search.Interleavings
import LogQuery.Proofs.Search.Pages
import LogQuery.Proofs.CommandLine.Spelling
import LogQuery.Proofs.CommandLine.RoundTrip
import LogQuery.Proofs.Json.Written
import LogQuery.Proofs.Settings.Given
import LogQuery.Proofs.Settings.Precedence
import LogQuery.Proofs.Settings.Agreement
import LogQuery.Proofs.Query.ClosedForm
import LogQuery.Proofs.Http.Traversal
import LogQuery.Proofs.Json.Positions
import LogQuery.Proofs.Query.Nulls
import LogQuery.Proofs.Query.Setters
import LogQuery.Proofs.Query.LeafKinds
import LogQuery.Proofs.Text.DigitsAndLetters
import LogQuery.Proofs.Query.FuzzyGrammar
import LogQuery.Proofs.Decimal.NearestDouble
import LogQuery.Proofs.Query.ScalarKinds
import LogQuery.Proofs.Json.Numbers
import LogQuery.Proofs.Json.Reading
import LogQuery.Proofs.Query.Rendering
import LogQuery.Proofs.Http.PercentDecoding
import LogQuery.Proofs.Http.Paths
import LogQuery.Proofs.Http.SearchAddresses
import LogQuery.Proofs.Calendar.Gregorian
import LogQuery.Proofs.Text.Places
import LogQuery.Proofs.Calendar.Written
import LogQuery.Proofs.Search.DailyNames
import LogQuery.Proofs.Record.Times
import LogQuery.Proofs.CommandLine.Overrides
import LogQuery.Proofs.Query.SearchedFields
import LogQuery.Proofs.CommandLine.Conditions
import LogQuery.Proofs.Query.Size
