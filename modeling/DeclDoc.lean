import DeclDoc.FileTree
import DeclDoc.Main
import DeclDoc.Proofs.Ordered
import DeclDoc.Proofs.Words
import DeclDoc.Proofs.EvenSpacing
import DeclDoc.Proofs.MergedInfo
import DeclDoc.Proofs.StorePath
import DeclDoc.Proofs.Accepted
import DeclDoc.Proofs.Finalize
import DeclDoc.Proofs.Acceptance
import DeclDoc.Proofs.Runs
import DeclDoc.Proofs.FileOrder
import DeclDoc.Proofs.Lexemes
import DeclDoc.Proofs.Preorder
import DeclDoc.Proofs.Located
import DeclDoc.Proofs.Nesting
import DeclDoc.Proofs.Stranding
import DeclDoc.Proofs.Enclosure
import DeclDoc.Proofs.Membership
import DeclDoc.Proofs.Grammar
import DeclDoc.Proofs.Phrases
import DeclDoc.Proofs.Recognition
import DeclDoc.Proofs.Cardinality
import DeclDoc.Proofs.Positions
import DeclDoc.Proofs.SourceOrder
import DeclDoc.Proofs.StoreForm
import DeclDoc.Proofs.EarlyFinalize
import DeclDoc.Proofs.Pruning
import DeclDoc.Proofs.PruneCount
import DeclDoc.Proofs.Positional.Table
import DeclDoc.Proofs.Positional.Loop
import DeclDoc.Proofs.Positional.Group
import DeclDoc.Proofs.Positional.Closing
import DeclDoc.Proofs.Positional.Declarator
import DeclDoc.Proofs.Positional.Variable
import DeclDoc.Proofs.Positional.Function
import DeclDoc.Proofs.Positional.Enumeration
import DeclDoc.Proofs.Positional.Plain
import DeclDoc.Proofs.Positional.Member
import DeclDoc.Proofs.Positional.Container
import DeclDoc.Proofs.Positional.Comment
import DeclDoc.Proofs.Positional.Totality
import DeclDoc.Proofs.Repetition
import DeclDoc.Proofs.KindFilter
import DeclDoc.Proofs.RecursiveWalk
import DeclDoc.Proofs.Documentation
import DeclDoc.Proofs.GroupMarkers
import DeclDoc.Proofs.MemberGroups
import DeclDoc.Proofs.MergeLaws
import DeclDoc.Proofs.Compatibility
import DeclDoc.Proofs.TokenExtent
import DeclDoc.Proofs.LexerLocality
import DeclDoc.Proofs.ClosedComments
import DeclDoc.Proofs.Recast
import DeclDoc.Proofs.RecastScan
import DeclDoc.Proofs.Transparency
import DeclDoc.Proofs.Selectors
import DeclDoc.Proofs.Shift
import DeclDoc.Proofs.Prototypes
import DeclDoc.Proofs.Definitions
import DeclDoc.Proofs.Variables
import DeclDoc.Proofs.Depth
import DeclDoc.Proofs.Enumerators
import DeclDoc.Proofs.MemberSequences
import DeclDoc.Proofs.ClassHeaders
import DeclDoc.Proofs.LineBreaks
import DeclDoc.Proofs.Leads
import DeclDoc.Proofs.LeadingWords
import DeclDoc.Proofs.Resynchronization
import DeclDoc.Proofs.CommentLines
import DeclDoc.Proofs.Passages
import DeclDoc.Proofs.Paragraphs
import DeclDoc.Proofs.WordConservation
import DeclDoc.Proofs.PlainComments
import DeclDoc.Proofs.CommentSpellings
import DeclDoc.Proofs.LineFeeds
import DeclDoc.Proofs.DumpedValues
import DeclDoc.Proofs.DumpedStores
import DeclDoc.Proofs.OutlineShape
import DeclDoc.Proofs.OutlineHeadings
import DeclDoc.Proofs.ScannedNames
import DeclDoc.Proofs.OneLineNodes
import DeclDoc.Proofs.OutlineLines
