import BuilderForge.Main
import BuilderForge.Proofs.Accessors
import BuilderForge.Proofs.KeyedLists
import BuilderForge.Proofs.BuilderShape
import BuilderForge.Proofs.Names
import BuilderForge.Proofs.Rows
import BuilderForge.Proofs.Shortening
import BuilderForge.Proofs.Totality
import BuilderForge.Proofs.Validity
import BuilderForge.Proofs.Scan
import BuilderForge.Proofs.Literals
import BuilderForge.Proofs.PageRows
import BuilderForge.Proofs.HarmlessPage
import BuilderForge.Proofs.ParameterTypes
import BuilderForge.Proofs.Containment
import BuilderForge.Proofs.Resolution
import BuilderForge.Proofs.NameForms
import BuilderForge.Proofs.Findings
import BuilderForge.Proofs.FirstViolation
import BuilderForge.Proofs.ConstantDefaults
import BuilderForge.Proofs.Alternatives
import BuilderForge.Proofs.Trees
import BuilderForge.Proofs.Paths
import BuilderForge.Proofs.Writing
import BuilderForge.Proofs.OutputPaths
import BuilderForge.Proofs.LineSplits
import BuilderForge.Proofs.EntityReferences
import BuilderForge.Proofs.ShortestForms
import BuilderForge.Proofs.Captures
import BuilderForge.Proofs.ShortenedLines
import BuilderForge.Proofs.SelfReferences
import BuilderForge.Proofs.Dependence
import BuilderForge.Proofs.LargerManifests
import BuilderForge.Proofs.Alterations
import BuilderForge.Proofs.Overwriting
import BuilderForge.Proofs.MissingFiles
import BuilderForge.Proofs.SingleWrites
import BuilderForge.Proofs.Reports
import BuilderForge.Proofs.Layouts
import BuilderForge.Proofs.RepeatedAlternatives
import BuilderForge.Proofs.PagePairs
import BuilderForge.Proofs.NullDefaults
import BuilderForge.Proofs.Numerals
import BuilderForge.Proofs.Utf8
import BuilderForge.Proofs.Rounding
import BuilderForge.Proofs.Decimals
import BuilderForge.Proofs.StringLiterals
import BuilderForge.Proofs.Expressions
import BuilderForge.Proofs.Decoding
import BuilderForge.Proofs.Evaluation
import BuilderForge.Proofs.WriterRuns
import BuilderForge.Proofs.QuotedNames
import BuilderForge.Proofs.RepeatedEntities
import BuilderForge.Proofs.EntityLookup
import BuilderForge.Proofs.Annotations
import BuilderForge.Proofs.DataPaths
import BuilderForge.Proofs.Records
import BuilderForge.Proofs.Skipping
import BuilderForge.Proofs.JsonText
import BuilderForge.Proofs.JsonReading
import BuilderForge.Proofs.JsonSources
import BuilderForge.Proofs.IntegerDefaults
import BuilderForge.Proofs.KeyOrder
import BuilderForge.Proofs.TomlTrees
import BuilderForge.Proofs.MapOrder
import BuilderForge.Proofs.TypeSpellings
import BuilderForge.Proofs.Positions
import BuilderForge.Proofs.BuilderNames
