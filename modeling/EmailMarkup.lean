import EmailMarkup.Component.Describe
import EmailMarkup.Main
import EmailMarkup.Proofs.Body.Attribute
import EmailMarkup.Proofs.Body.Nesting
import EmailMarkup.Proofs.Body.Rejected
import EmailMarkup.Proofs.Body.TextBlock
import EmailMarkup.Proofs.Body.Widths
import EmailMarkup.Proofs.Cascade.Frame
import EmailMarkup.Proofs.Cascade.Order
import EmailMarkup.Proofs.Command.Documents
import EmailMarkup.Proofs.Css.RoundTrip
import EmailMarkup.Proofs.Html.Arena
import EmailMarkup.Proofs.Html.Escaping
import EmailMarkup.Proofs.Html.Total
import EmailMarkup.Proofs.Layout.Edges
import EmailMarkup.Proofs.Markup.BreakOff
import EmailMarkup.Proofs.Markup.Comments
import EmailMarkup.Proofs.Markup.Faithful
import EmailMarkup.Proofs.Markup.Print
import EmailMarkup.Proofs.Outlook.Minify
import EmailMarkup.Proofs.Outlook.Runs
import EmailMarkup.Proofs.Page.Failing
import EmailMarkup.Proofs.Page.HeadPass
import EmailMarkup.Proofs.Page.MediaTags
import EmailMarkup.Proofs.Page.Strictness
import EmailMarkup.Proofs.Sanitize.Ladder
import EmailMarkup.Proofs.Schema.StyleClass
import EmailMarkup.Proofs.Selector.Commas
import EmailMarkup.Proofs.Selector.Nearest
import EmailMarkup.Proofs.Selector.Position
import EmailMarkup.Proofs.Selector.Print
import EmailMarkup.Proofs.Url.Disguise
import EmailMarkup.Schema.Keyword
