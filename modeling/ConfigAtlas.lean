import ConfigAtlas.Path.Reader
import ConfigAtlas.Survey
import ConfigAtlas.Proofs.Atlas.History
import ConfigAtlas.Proofs.Atlas.Lookup
import ConfigAtlas.Proofs.Atlas.Records
import ConfigAtlas.Proofs.Diagnostic.Carets
import ConfigAtlas.Proofs.Diagnostic.Highlights
import ConfigAtlas.Proofs.Flat.Composed
import ConfigAtlas.Proofs.Flat.GuardedKey
import ConfigAtlas.Proofs.Flat.KeyEnd
import ConfigAtlas.Proofs.Flat.Nested
import ConfigAtlas.Proofs.Flat.NestedScan
import ConfigAtlas.Proofs.Flat.PastEnd
import ConfigAtlas.Proofs.Flat.Source
import ConfigAtlas.Proofs.Flat.SourceScan
import ConfigAtlas.Proofs.Flat.Spans
import ConfigAtlas.Proofs.Markup.Built
import ConfigAtlas.Proofs.Markup.ByteScan
import ConfigAtlas.Proofs.Markup.CommentBodies
import ConfigAtlas.Proofs.Markup.CommentScan
import ConfigAtlas.Proofs.Markup.Composed
import ConfigAtlas.Proofs.Markup.Ledger
import ConfigAtlas.Proofs.Markup.Links
import ConfigAtlas.Proofs.Markup.Naming
import ConfigAtlas.Proofs.Markup.OnlyChildren
import ConfigAtlas.Proofs.Markup.OrderedForest
import ConfigAtlas.Proofs.Markup.OuterFirst
import ConfigAtlas.Proofs.Markup.Placed
import ConfigAtlas.Proofs.Markup.QuotedAttributes
import ConfigAtlas.Proofs.Markup.Relocated
import ConfigAtlas.Proofs.Markup.Returns
import ConfigAtlas.Proofs.Markup.Spans
import ConfigAtlas.Proofs.Markup.Stops
import ConfigAtlas.Proofs.Markup.TagOrder
import ConfigAtlas.Proofs.Markup.TagParts
import ConfigAtlas.Proofs.Markup.Tags
import ConfigAtlas.Proofs.Markup.Tree
import ConfigAtlas.Proofs.Markup.TreeBuild
import ConfigAtlas.Proofs.Markup.TreePaths
import ConfigAtlas.Proofs.Markup.TreeScan
import ConfigAtlas.Proofs.Markup.Visits
import ConfigAtlas.Proofs.Markup.WrittenTag
import ConfigAtlas.Proofs.Outline.Ancestry
import ConfigAtlas.Proofs.Outline.Block
import ConfigAtlas.Proofs.Outline.BlockScan
import ConfigAtlas.Proofs.Outline.BlockShape
import ConfigAtlas.Proofs.Outline.Comments
import ConfigAtlas.Proofs.Outline.Composed
import ConfigAtlas.Proofs.Outline.FlowList
import ConfigAtlas.Proofs.Outline.LineOrder
import ConfigAtlas.Proofs.Outline.OpenHolders
import ConfigAtlas.Proofs.Outline.QuotedKey
import ConfigAtlas.Proofs.Outline.Spans
import ConfigAtlas.Proofs.Outline.TrailingComment
import ConfigAtlas.Proofs.Path.Address
import ConfigAtlas.Proofs.Path.Composed
import ConfigAtlas.Proofs.Path.Gapless
import ConfigAtlas.Proofs.Path.Grammar
import ConfigAtlas.Proofs.Path.Reached
import ConfigAtlas.Proofs.Path.Reading
import ConfigAtlas.Proofs.Place.Renumbered
import ConfigAtlas.Proofs.Place.Shown
import ConfigAtlas.Proofs.Survey.InertLines
import ConfigAtlas.Proofs.Survey.Nearest
import ConfigAtlas.Proofs.Survey.Order
import ConfigAtlas.Proofs.Survey.Pointing
import ConfigAtlas.Proofs.Survey.Texts
import ConfigAtlas.Proofs.Text.Bytes
import ConfigAtlas.Proofs.Text.CommaLists
import ConfigAtlas.Proofs.Text.Feeds
import ConfigAtlas.Proofs.Text.Fronts
import ConfigAtlas.Proofs.Text.Guarded
import ConfigAtlas.Proofs.Text.Lines
import ConfigAtlas.Proofs.Text.Literal
import ConfigAtlas.Proofs.Text.OnLine
import ConfigAtlas.Proofs.Text.RowLookup
