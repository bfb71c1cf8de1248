import SchemaSieve.Main
import SchemaSieve.Double.Text
import SchemaSieve.Double.Rounding
import SchemaSieve.Decimal.Numeral
import SchemaSieve.Json.Printer
import SchemaSieve.Value.Shape
import SchemaSieve.Value.Text
import SchemaSieve.Json.Fault
import SchemaSieve.Json.Reader
import SchemaSieve.Json.Strings
import SchemaSieve.Json.Numerals
import SchemaSieve.Json.Document
import SchemaSieve.Json.Skipping
import SchemaSieve.Json.Typed
import SchemaSieve.Schema.Reading
import SchemaSieve.Schema.Fragment
import SchemaSieve.Issue.Failure
import SchemaSieve.Coercion.Basic
import SchemaSieve.Normalization
import SchemaSieve.Validation
import SchemaSieve.Options.Reading
import SchemaSieve.Issue.Reading
import SchemaSieve.Sanitizer
import SchemaSieve.Options.Config
import SchemaSieve.Files.Basic
import SchemaSieve.Glob.Search
import SchemaSieve.Command.Run
import SchemaSieve.Conformance.Run
import SchemaSieve.Proofs.NormalForm
import SchemaSieve.Proofs.Acceptance
import SchemaSieve.Proofs.Policies
import SchemaSieve.Proofs.CanonicalScalars
import SchemaSieve.Proofs.Conforming
import SchemaSieve.Proofs.Idempotence
import SchemaSieve.Proofs.Widening
import SchemaSieve.Proofs.Names
import SchemaSieve.Proofs.Completeness
import SchemaSieve.Proofs.Shortest
import SchemaSieve.Proofs.Literals
import SchemaSieve.Proofs.FloatLiterals
import SchemaSieve.Proofs.Scaling
import SchemaSieve.Proofs.WrittenTrees
import SchemaSieve.Proofs.Rereading
import SchemaSieve.Proofs.Resanitizing
import SchemaSieve.Proofs.ElementPlaces
import SchemaSieve.Proofs.Places
import SchemaSieve.Proofs.FirstError
import SchemaSieve.Proofs.RawForms
import SchemaSieve.Proofs.Satisfying
import SchemaSieve.Proofs.MessageLines
import SchemaSieve.Proofs.SchemaTexts
import SchemaSieve.Proofs.Equality
import SchemaSieve.Proofs.Reloading
import SchemaSieve.Proofs.EqualSchemas
import SchemaSieve.Proofs.MemberOrder
import SchemaSieve.Proofs.StoredFiles
import SchemaSieve.Proofs.StoredResults
import SchemaSieve.Proofs.IntegersOfTexts
import SchemaSieve.Proofs.WholeBatches
import SchemaSieve.Proofs.VerbAgreement
import SchemaSieve.Proofs.TextsReadBack
import SchemaSieve.Proofs.IntegralTexts
import SchemaSieve.Proofs.PhoneSpellings
import SchemaSieve.Proofs.DepthSearch
import SchemaSieve.Proofs.Positions
import SchemaSieve.Proofs.IssuesByPart
import SchemaSieve.Proofs.EqualValues
import SchemaSieve.Proofs.Lowering
import SchemaSieve.Proofs.Classification
import SchemaSieve.Proofs.Fragments
import SchemaSieve.Proofs.PathTexts
import SchemaSieve.Proofs.Insertions
import SchemaSieve.Proofs.DoubleReading
import SchemaSieve.Proofs.NumericStrings
