import Remap.CommandLine.Arguments
import Remap.CommandLine.Execute
import Remap.Decimal.Binary64
import Remap.Decimal.Shortest
import Remap.Decimal.Word
import Remap.Dictionary
import Remap.Document.Access
import Remap.Document.DotPath
import Remap.Document.InPlace
import Remap.Document.Value
import Remap.Expression.Basic
import Remap.Expression.Parser
import Remap.Json.Numeral
import Remap.Json.Printer
import Remap.Json.Reader
import Remap.Main
import Remap.Mapping.Collecting
import Remap.Mapping.Grammar
import Remap.Mapping.Program
import Remap.Mapping.Source
import Remap.Message.Batch
import Remap.Message.Metadata
import Remap.Parser.Basic
import Remap.Parser.Token
import Remap.Proofs.ApplyDepth
import Remap.Proofs.Attempts
import Remap.Proofs.BlockReading
import Remap.Proofs.Bracketed
import Remap.Proofs.ClosedPlans
import Remap.Proofs.CollectedMaps
import Remap.Proofs.Collisions
import Remap.Proofs.Combinators
import Remap.Proofs.Commit
import Remap.Proofs.CommittedForms
import Remap.Proofs.ContentReads
import Remap.Proofs.CopiedFields
import Remap.Proofs.Derivation
import Remap.Proofs.DivergingPaths
import Remap.Proofs.DotPaths
import Remap.Proofs.EmptySegments
import Remap.Proofs.EncodedText
import Remap.Proofs.Envelope
import Remap.Proofs.ErrorPlaces
import Remap.Proofs.EveryStatement
import Remap.Proofs.ExprForms
import Remap.Proofs.Extraction
import Remap.Proofs.FailFast
import Remap.Proofs.Failures
import Remap.Proofs.Forms
import Remap.Proofs.Frame
import Remap.Proofs.HeaderLines
import Remap.Proofs.InputLines
import Remap.Proofs.IntegerLiterals
import Remap.Proofs.Invariance
import Remap.Proofs.ItemInvariants
import Remap.Proofs.JoinedMappings
import Remap.Proofs.JoinedOutlines
import Remap.Proofs.KeywordTargets
import Remap.Proofs.LineRuns
import Remap.Proofs.Lines
import Remap.Proofs.Locations
import Remap.Proofs.Lockstep
import Remap.Proofs.Loops
import Remap.Proofs.MetadataReads
import Remap.Proofs.MovedPlans
import Remap.Proofs.OneKey
import Remap.Proofs.Outline
import Remap.Proofs.OutlineReading
import Remap.Proofs.PathLaws
import Remap.Proofs.Places
import Remap.Proofs.Policies
import Remap.Proofs.PrintedText
import Remap.Proofs.PrintedTokens
import Remap.Proofs.ProgramReading
import Remap.Proofs.QuotedStrings
import Remap.Proofs.Reached
import Remap.Proofs.ReadBack
import Remap.Proofs.ReadOutlines
import Remap.Proofs.Recursion
import Remap.Proofs.References
import Remap.Proofs.RefusedTargets
import Remap.Proofs.RefusedWrites
import Remap.Proofs.Regions
import Remap.Proofs.Replacements
import Remap.Proofs.Rereading
import Remap.Proofs.ScriptPlan
import Remap.Proofs.SeparateParts
import Remap.Proofs.SortedValues
import Remap.Proofs.SourceLiterals
import Remap.Proofs.Spacing
import Remap.Proofs.Spellable
import Remap.Proofs.SpelledExpr
import Remap.Proofs.SpelledProgram
import Remap.Proofs.Spelling
import Remap.Proofs.Staging
import Remap.Proofs.StartingDepth
import Remap.Proofs.StatementForms
import Remap.Proofs.StatementLines
import Remap.Proofs.StoredDocuments
import Remap.Proofs.Suffixes
import Remap.Proofs.Taken
import Remap.Proofs.TargetPaths
import Remap.Proofs.WritableExprs
import Remap.Run.Assign
import Remap.Run.Error
import Remap.Run.Eval
import Remap.Run.Map
import Remap.Run.Query
import Remap.Settings.Basic
import Remap.Stream.Lines
import Remap.Stream.Runner
import Remap.Text.Blank
import Remap.Text.Location
import Remap.Text.Utf8
import Remap.Yaml.Cursor
import Remap.Yaml.Mapping
import Remap.Yaml.Plain
import Remap.Yaml.Quoted
import Remap.Yaml.Scalar
import Remap.Yaml.Spacing
