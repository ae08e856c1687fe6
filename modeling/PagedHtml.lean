import PagedHtml.Primitive.Json
import PagedHtml.Proofs.Content.Collecting
import PagedHtml.Proofs.Content.Enclosing
import PagedHtml.Proofs.Content.Hiding
import PagedHtml.Proofs.Content.Numbering
import PagedHtml.Proofs.Content.Styling
import PagedHtml.Proofs.Content.Traversal
import PagedHtml.Proofs.Content.Visibility
import PagedHtml.Proofs.Content.Walk
import PagedHtml.Proofs.Css.Canonical
import PagedHtml.Proofs.Css.Consumption
import PagedHtml.Proofs.Css.CutOff
import PagedHtml.Proofs.Css.Embedding
import PagedHtml.Proofs.Css.Escapes
import PagedHtml.Proofs.Css.Faithful
import PagedHtml.Proofs.Css.Integers
import PagedHtml.Proofs.Css.Interposing
import PagedHtml.Proofs.Css.Joining
import PagedHtml.Proofs.Css.Lexing
import PagedHtml.Proofs.Css.LineEndings
import PagedHtml.Proofs.Css.Numerals
import PagedHtml.Proofs.Css.Sessions
import PagedHtml.Proofs.Css.Stretches
import PagedHtml.Proofs.Css.Stylesheets
import PagedHtml.Proofs.Diagnostic.Sink
import PagedHtml.Proofs.Document.Forest
import PagedHtml.Proofs.Image.Acquisition
import PagedHtml.Proofs.Reference.DataUrl
import PagedHtml.Proofs.Reference.FilePath
import PagedHtml.Proofs.Reference.Resolving
import PagedHtml.Proofs.Render.Borders
import PagedHtml.Proofs.Render.Bundling
import PagedHtml.Proofs.Render.Cascade
import PagedHtml.Proofs.Render.Markers
import PagedHtml.Proofs.Render.Pictures
import PagedHtml.Proofs.Render.Placing
import PagedHtml.Proofs.Render.Reach
import PagedHtml.Proofs.Render.Reading
import PagedHtml.Proofs.Render.Recasting
import PagedHtml.Proofs.Render.Refusal
import PagedHtml.Proofs.Render.Reports
import PagedHtml.Proofs.Selector.Recorded
import PagedHtml.Proofs.Selector.Steadfast
import PagedHtml.Proofs.Style.Accounting
import PagedHtml.Proofs.Style.Computed
import PagedHtml.Proofs.Style.Naming
import PagedHtml.Proofs.Style.Sheets
import PagedHtml.Proofs.Style.Translation
import PagedHtml.Proofs.Style.Written
import PagedHtml.Render.Pass
