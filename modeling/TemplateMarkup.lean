import TemplateMarkup.Compiler
import TemplateMarkup.NestedDocument
import TemplateMarkup.Proofs.BlindParses
import TemplateMarkup.Proofs.BraceReading
import TemplateMarkup.Proofs.ByteOrderMarks
import TemplateMarkup.Proofs.Confluence
import TemplateMarkup.Proofs.ConsistentNames
import TemplateMarkup.Proofs.CursorMoves
import TemplateMarkup.Proofs.CycleDetection
import TemplateMarkup.Proofs.DedentedText
import TemplateMarkup.Proofs.DefinedNames
import TemplateMarkup.Proofs.DefinedTrees
import TemplateMarkup.Proofs.DefinitionHeadings
import TemplateMarkup.Proofs.DefinitionMeaning
import TemplateMarkup.Proofs.DefinitionRecords
import TemplateMarkup.Proofs.DocumentChanges
import TemplateMarkup.Proofs.DrawnContent
import TemplateMarkup.Proofs.PreparedElements
import TemplateMarkup.Proofs.EditedElements
import TemplateMarkup.Proofs.EditedTrees
import TemplateMarkup.Proofs.EnforcedExceptions
import TemplateMarkup.Proofs.EscapedText
import TemplateMarkup.Proofs.ExpansionCycles
import TemplateMarkup.Proofs.ForestCopies
import TemplateMarkup.Proofs.ForestErasures
import TemplateMarkup.Proofs.ForestHosts
import TemplateMarkup.Proofs.ForestLinks
import TemplateMarkup.Proofs.ForestOperations
import TemplateMarkup.Proofs.ForestReplacements
import TemplateMarkup.Proofs.ForestRoots
import TemplateMarkup.Proofs.ForestTrees
import TemplateMarkup.Proofs.ForestWalks
import TemplateMarkup.Proofs.GivenNames
import TemplateMarkup.Proofs.InPlaceExpansion
import TemplateMarkup.Proofs.InheritanceForms
import TemplateMarkup.Proofs.InheritanceGraph
import TemplateMarkup.Proofs.InheritedContent
import TemplateMarkup.Proofs.InsertedProperties
import TemplateMarkup.Proofs.InterchangeableMarks
import TemplateMarkup.Proofs.LexemeEnds
import TemplateMarkup.Proofs.LexicalScopes
import TemplateMarkup.Proofs.LinkedForests
import TemplateMarkup.Proofs.NamedElements
import TemplateMarkup.Proofs.NamespaceBlocks
import TemplateMarkup.Proofs.NestedDocuments
import TemplateMarkup.Proofs.NestedSources
import TemplateMarkup.Proofs.NestingDepths
import TemplateMarkup.Proofs.NestingLimits
import TemplateMarkup.Proofs.OpenNamespaces
import TemplateMarkup.Proofs.OrderedMapLookup
import TemplateMarkup.Proofs.OriginBlocks
import TemplateMarkup.Proofs.OriginContents
import TemplateMarkup.Proofs.OriginSites
import TemplateMarkup.Proofs.ParseBounds
import TemplateMarkup.Proofs.ParseProgress
import TemplateMarkup.Proofs.ParseSteps
import TemplateMarkup.Proofs.ParseYields
import TemplateMarkup.Proofs.ParsedDocuments
import TemplateMarkup.Proofs.ParsedElements
import TemplateMarkup.Proofs.ParsedForests
import TemplateMarkup.Proofs.ParsedUsages
import TemplateMarkup.Proofs.PlainMarkup
import TemplateMarkup.Proofs.PlainParses
import TemplateMarkup.Proofs.PlainSources
import TemplateMarkup.Proofs.PlantedTrees
import TemplateMarkup.Proofs.ProductionMoves
import TemplateMarkup.Proofs.PropertyNames
import TemplateMarkup.Proofs.QuietParses
import TemplateMarkup.Proofs.ReadingSteps
import TemplateMarkup.Proofs.ReadingStrides
import TemplateMarkup.Proofs.RecordedContent
import TemplateMarkup.Proofs.RejectedNodes
import TemplateMarkup.Proofs.RemovedTrees
import TemplateMarkup.Proofs.ResolveCalls
import TemplateMarkup.Proofs.ResolveOutcomes
import TemplateMarkup.Proofs.ResolveSteps
import TemplateMarkup.Proofs.ResolvedContent
import TemplateMarkup.Proofs.ScriptText
import TemplateMarkup.Proofs.SelectorText
import TemplateMarkup.Proofs.SelectorTokens
import TemplateMarkup.Proofs.SeparateLines
import TemplateMarkup.Proofs.SerializedTrees
import TemplateMarkup.Proofs.SourcePieces
import TemplateMarkup.Proofs.SourceSlices
import TemplateMarkup.Proofs.SpacedHyphens
import TemplateMarkup.Proofs.StoredContent
import TemplateMarkup.Proofs.StringLiterals
import TemplateMarkup.Proofs.SubtreeOperations
import TemplateMarkup.Proofs.TokenPlaces
import TemplateMarkup.Proofs.ToldErrors
import TemplateMarkup.Proofs.TreeLevels
import TemplateMarkup.Proofs.TreeWriting
import TemplateMarkup.Proofs.UnfilledNames
import TemplateMarkup.Proofs.UnfoldedUsages
import TemplateMarkup.Proofs.ValueText
import TemplateMarkup.Proofs.VariableSubstitution
import TemplateMarkup.Proofs.WriteStates
import TemplateMarkup.Proofs.WritingLimits
import TemplateMarkup.Proofs.WritingSteps
import TemplateMarkup.Proofs.WrittenComments
import TemplateMarkup.Proofs.WrittenTrees
