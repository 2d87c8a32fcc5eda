import Schemata.Text.Str
import Schemata.Text.Character
import Schemata.Text.Printable
import Schemata.Text.Numeral
import Schemata.Text.Lines
import Schemata.Source.Position
import Schemata.Source.Location
import Schemata.Number.Binary64
import Schemata.Number.Decimal
import Schemata.Number.Basic
import Schemata.Json.Scalar
import Schemata.Json.Node
import Schemata.Json.Numeral
import Schemata.Json.Escape
import Schemata.Json.Lexeme
import Schemata.Json.Token
import Schemata.Json.Reader
import Schemata.Pointer
import Schemata.Schema.View
import Schemata.Schema.Keyword
import Schemata.Schema.Shape
import Schemata.Schema.Lookup
import Schemata.Schema.Naming
import Schemata.Model.Label
import Schemata.Model.Rule
import Schemata.Model.Entry
import Schemata.Model.Violation
import Schemata.Schema.Facet
import Schemata.Config.Token
import Schemata.Config.Reader
import Schemata.Json.Value
import Schemata.Model.Encoding
import Schemata.Options
import Schemata.Report
import Schemata.Source.Path
import Schemata.Analysis.Context
import Schemata.Analysis.Step
import Schemata.Analysis.Convert
import Schemata.Text.Similarity
import Schemata.Cli.Arguments
import Schemata.Cli.Workspace
import Schemata.Cli.Command
import Schemata.Cli.Log
import Schemata.Cli.Run
import Schemata.Main
import Schemata.Proofs.Action
import Schemata.Proofs.Shallow
import Schemata.Proofs.Steps
import Schemata.Proofs.Course
import Schemata.Proofs.Growth
import Schemata.Proofs.Frame
import Schemata.Proofs.Results
import Schemata.Proofs.Classification
import Schemata.Proofs.Consistency
import Schemata.Proofs.Places
import Schemata.Proofs.Depth
import Schemata.Proofs.Termination
import Schemata.Proofs.Pointers
import Schemata.Proofs.Descent
import Schemata.Proofs.Reasons
import Schemata.Proofs.Parallel
import Schemata.Proofs.BareCycles
import Schemata.Proofs.Rounds
import Schemata.Proofs.Exploration
import Schemata.Proofs.Cycles
import Schemata.Proofs.Repetition
import Schemata.Proofs.Grammar
import Schemata.Proofs.Scalars
import Schemata.Proofs.Lexing
import Schemata.Proofs.Parsing
import Schemata.Proofs.Positions
import Schemata.Proofs.ForcedPaths
import Schemata.Proofs.Layouts
import Schemata.Proofs.Marks
import Schemata.Proofs.RelocatedRuns
import Schemata.Proofs.LayoutIndependence
import Schemata.Proofs.Strictness
import Schemata.Proofs.Changes
import Schemata.Proofs.Unions
import Schemata.Proofs.Reporting
import Schemata.Proofs.PartNames
import Schemata.Proofs.Origins
import Schemata.Proofs.ReferencedRules
import Schemata.Proofs.Bounds
import Schemata.Proofs.EndlessPaths
import Schemata.Proofs.Faults
import Schemata.Proofs.AccessPaths
import Schemata.Proofs.Culprits
import Schemata.Proofs.Turns
import Schemata.Proofs.Dangling
import Schemata.Proofs.Collisions
import Schemata.Proofs.Bodies
import Schemata.Proofs.PropertyNames
import Schemata.Proofs.Intersections
import Schemata.Proofs.Merging
import Schemata.Proofs.RequiredProperties
import Schemata.Proofs.Spellings
import Schemata.Proofs.WrittenLocations
import Schemata.Proofs.Surrogates
import Schemata.Proofs.CitedData
import Schemata.Proofs.Citations
import Schemata.Proofs.ReportedPositions
import Schemata.Proofs.Slices
import Schemata.Proofs.ReadFaults
import Schemata.Proofs.Stages
import Schemata.Proofs.ViablePrefixes
import Schemata.Proofs.Rounding
import Schemata.Proofs.DecimalTexts
import Schemata.Proofs.WrittenValues
import Schemata.Proofs.EncodedData
import Schemata.Proofs.ConfiguredOptions
import Schemata.Proofs.PrintedOutcomes
import Schemata.Proofs.Paragraphs
import Schemata.Proofs.RuleOrigins
import Schemata.Proofs.InheritedDescriptions
import Schemata.Proofs.Encodings
import Schemata.Proofs.PointerTexts
import Schemata.Proofs.WrittenIntegers
import Schemata.Proofs.LocationTexts
import Schemata.Proofs.KeysAlongWalks
import Schemata.Proofs.CallSites
import Schemata.Proofs.Revisits
