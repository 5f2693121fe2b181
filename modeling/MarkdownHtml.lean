import MarkdownHtml.Converter
import MarkdownHtml.Outline
import MarkdownHtml.Proofs.BlockTrees
import MarkdownHtml.Proofs.FlatSimulation
import MarkdownHtml.Proofs.Rendering
import MarkdownHtml.Settings.Location
import MarkdownHtml.Text.Cursor
import MarkdownHtml.WellFormed
import MarkdownHtml.Proofs.Addresses
import MarkdownHtml.Proofs.Bases
import MarkdownHtml.Proofs.Composition
import MarkdownHtml.Proofs.LineGroups
import MarkdownHtml.Proofs.Nesting
import MarkdownHtml.Proofs.NestingLimit
import MarkdownHtml.Proofs.FencedCode
import MarkdownHtml.Proofs.Escapes
import MarkdownHtml.Proofs.ClosingFences
import MarkdownHtml.Proofs.LiteralText
import MarkdownHtml.Proofs.RawSpans
import MarkdownHtml.Proofs.Encoding
import MarkdownHtml.Proofs.TailReaders
import MarkdownHtml.Proofs.TailGrammar
import MarkdownHtml.Proofs.DelimiterRuns
import MarkdownHtml.Proofs.ItemRuns
import MarkdownHtml.Proofs.ListColumns
import MarkdownHtml.Proofs.RenderedLists
import MarkdownHtml.Proofs.LineEnds
import MarkdownHtml.Proofs.ByteInput
import MarkdownHtml.Proofs.Chunks
import MarkdownHtml.Proofs.NestedMarkers
import MarkdownHtml.Proofs.Outlines
import MarkdownHtml.Proofs.Disguises
import MarkdownHtml.Proofs.PercentCodes
import MarkdownHtml.Proofs.StoredSettings
import MarkdownHtml.Proofs.LongestMatch
import MarkdownHtml.Proofs.TailBoundaries
import MarkdownHtml.Proofs.Bookkeeping
import MarkdownHtml.Proofs.QuoteMarkers
import MarkdownHtml.Proofs.Indents
import MarkdownHtml.Proofs.QuotePlaces
