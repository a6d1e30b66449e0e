import SchemaLang.Main
import SchemaLang.Proofs.Aliases
import SchemaLang.Proofs.Faults
import SchemaLang.Proofs.Constraints
import SchemaLang.Proofs.Layout
import SchemaLang.Proofs.Located.Reading
import SchemaLang.Proofs.Nested.Reading
import SchemaLang.Proofs.Readings
import SchemaLang.Proofs.Recovered
import SchemaLang.Proofs.Reports.Shown
import SchemaLang.Proofs.Spared.Reading
import SchemaLang.Proofs.Unclosed
import SchemaLang.Proofs.Window.Unit
import SchemaLang.Proofs.Written.Reading
import SchemaLang.Proofs.Offsets.Resolution
import SchemaLang.Proofs.Shown.Diagnostics
import SchemaLang.Proofs.Shown.Tokens
import SchemaLang.Proofs.Verdict.Arguments
import SchemaLang.Proofs.Verdict.Run
import SchemaLang.Proofs.Written.Respaced
import SchemaLang.Proofs.Shown.Comments
import SchemaLang.Proofs.Shown.Cuts
import SchemaLang.Proofs.Written.Regexes
import SchemaLang.Proofs.Walked.Order
import SchemaLang.Proofs.WholeNumbers
import SchemaLang.Proofs.Grouped.Reading
import SchemaLang.Proofs.DerivedAliases
import SchemaLang.Proofs.Written.Documentation
import SchemaLang.Proofs.Documented.Reading
import SchemaLang.Proofs.Imports.Reading
import SchemaLang.Proofs.Isolated.Reading
import SchemaLang.Proofs.Numerals.Reading
