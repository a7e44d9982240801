import ImportAssist.Data.Json.Reader
import ImportAssist.Inventory.Exports
import ImportAssist.Syntax.Parse
import ImportAssist.Text.Point
import ImportAssist.Path
import ImportAssist.Text.Blank
import ImportAssist.Text.Digit
import ImportAssist.Text.LowerCase
import ImportAssist.Text.Printable
import ImportAssist.Text.Word
import ImportAssist.Disk
import ImportAssist.Pattern.Match
import ImportAssist.Pattern.Template
import ImportAssist.Settings.Load
import ImportAssist.Candidate
import ImportAssist.Document
import ImportAssist.Modules.Surface
import ImportAssist.Workspace.Ignore
import ImportAssist.Workspace.Index
import ImportAssist.Synthesis.Add
import ImportAssist.Repair
import ImportAssist.Recency
import ImportAssist.Cancellation
import ImportAssist.Indicator
import ImportAssist.Session.Session
import ImportAssist.Main
import ImportAssist.Proofs.Commitment
import ImportAssist.Proofs.Encoding
import ImportAssist.Proofs.Insertion
import ImportAssist.Proofs.Recognition
import ImportAssist.Proofs.Splice
import ImportAssist.Proofs.ThroughIndex
import ImportAssist.Proofs.Outline
import ImportAssist.Proofs.Origins
import ImportAssist.Proofs.Rebinding
import ImportAssist.Proofs.ExportStatements
import ImportAssist.Proofs.NamedExports
import ImportAssist.Proofs.SiblingPaths
import ImportAssist.Proofs.Forecasts
import ImportAssist.Proofs.KnownTokens
import ImportAssist.Proofs.Foresight
import ImportAssist.Proofs.NewImports
import ImportAssist.Proofs.Additions
import ImportAssist.Proofs.Parts
import ImportAssist.Proofs.Deletions
import ImportAssist.Proofs.RepairedPaths
import ImportAssist.Proofs.ImportPaths
import ImportAssist.Proofs.IgnoredDirectories
import ImportAssist.Proofs.KeptPackages
import ImportAssist.Proofs.OfferedPackages
import ImportAssist.Proofs.LastUses
import ImportAssist.Proofs.SessionFrames
import ImportAssist.Proofs.TidyHistories
import ImportAssist.Proofs.OrderedIndex
import ImportAssist.Proofs.FirstReadings
import ImportAssist.Proofs.JsonLimits
import ImportAssist.Proofs.ArrangedCandidates
import ImportAssist.Proofs.EditBatches
import ImportAssist.Proofs.BindingSites
import ImportAssist.Proofs.MergeEdits
import ImportAssist.Proofs.Replacements
import ImportAssist.Proofs.BestEffort
import ImportAssist.Proofs.Declarators
import ImportAssist.Proofs.DefaultExports
import ImportAssist.Proofs.MergedStatements
import ImportAssist.Proofs.ReadingDepth
import ImportAssist.Proofs.LockStep
import ImportAssist.Proofs.PlainText
import ImportAssist.Proofs.PlainTokens
import ImportAssist.Proofs.ReplacedLiterals
import ImportAssist.Proofs.WrittenPaths
import ImportAssist.Proofs.ExplicitPaths
import ImportAssist.Proofs.DeadEnds
import ImportAssist.Proofs.DerivedNames
import ImportAssist.Proofs.IndexRoutes
import ImportAssist.Proofs.NearestManifest
import ImportAssist.Proofs.SettingsSchema
import ImportAssist.Proofs.DryRuns
import ImportAssist.Proofs.RequireCalls
import ImportAssist.Proofs.TextReadings
import ImportAssist.Proofs.WholeTokens
import ImportAssist.Proofs.Segments
import ImportAssist.Proofs.Specifiers
import ImportAssist.Proofs.Declarations
import ImportAssist.Proofs.DeclaredNames
import ImportAssist.Proofs.JoinedDeclarations
import ImportAssist.Proofs.MergedDeclarations
import ImportAssist.Proofs.RereadStatements
import ImportAssist.Proofs.StatementStarts
import ImportAssist.Proofs.ImportsInFront
import ImportAssist.Proofs.KnownFronts
import ImportAssist.Proofs.MergedReadings
