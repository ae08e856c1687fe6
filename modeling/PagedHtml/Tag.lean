/-
**The closed vocabulary of tags.**

These are the tags that can be rendered. Each belongs to one category, which says how it is rendered
by default, and some flow inline with text.

* `mem_all`: `all` leaves no tag out;
* `ofName?_name`: a tag is found by its name.
-/

import PagedHtml.Text.Ascii

namespace PagedHtml

/-- A tag that can be rendered. -/
inductive Tag where
  -- Metadata
  | head | title | metadata | link | style | script | noscript | template
  -- Parts of a document and groups of text
  | html | body | division | paragraph | heading1 | heading2 | heading3 | heading4 | heading5
  | heading6 | genericSection | article | header | footer | navigation | mainContent | aside
  | quotation | preformatted | rule | figure | figureCaption | bulletList | numberedList | listItem
  -- Text
  | anchor | span | bold | strong | italic | emphasis | underline | strike | deleted | inserted
  | small | subscript | superscript | code | mark | label | lineBreak
  -- Images
  | image | vector
  -- Tables
  | table | tableCaption | tableHead | tableBody | tableFoot | tableRow | dataCell | headerCell
  deriving DecidableEq, Repr

/-- How a tag is rendered by default. -/
inductive Tag.Category where
  /-- Nothing is shown, whatever is in the element. -/
  | metadata
  | block
  | inline
  /-- A rendering of its own. -/
  | special
  deriving DecidableEq, Repr

namespace Tag

def all : List Tag :=
  [.head, .title, .metadata, .link, .style, .script, .noscript, .template, .html, .body, .division,
   .paragraph, .heading1, .heading2, .heading3, .heading4, .heading5, .heading6, .genericSection,
   .article, .header, .footer, .navigation, .mainContent, .aside, .quotation, .preformatted, .rule,
   .figure, .figureCaption, .bulletList, .numberedList, .listItem, .anchor, .span, .bold, .strong,
   .italic, .emphasis, .underline, .strike, .deleted, .inserted, .small, .subscript, .superscript,
   .code, .mark, .label, .lineBreak, .image, .vector, .table, .tableCaption, .tableHead,
   .tableBody, .tableFoot, .tableRow, .dataCell, .headerCell]

/-- The name of a tag, in small letters. -/
def name : Tag → String
  | head => "head"
  | title => "title"
  | metadata => "meta"
  | link => "link"
  | style => "style"
  | script => "script"
  | noscript => "noscript"
  | template => "template"
  | html => "html"
  | body => "body"
  | division => "div"
  | paragraph => "p"
  | heading1 => "h1"
  | heading2 => "h2"
  | heading3 => "h3"
  | heading4 => "h4"
  | heading5 => "h5"
  | heading6 => "h6"
  | genericSection => "section"
  | article => "article"
  | header => "header"
  | footer => "footer"
  | navigation => "nav"
  | mainContent => "main"
  | aside => "aside"
  | quotation => "blockquote"
  | preformatted => "pre"
  | rule => "hr"
  | figure => "figure"
  | figureCaption => "figcaption"
  | bulletList => "ul"
  | numberedList => "ol"
  | listItem => "li"
  | anchor => "a"
  | span => "span"
  | bold => "b"
  | strong => "strong"
  | italic => "i"
  | emphasis => "em"
  | underline => "u"
  | strike => "s"
  | deleted => "del"
  | inserted => "ins"
  | small => "small"
  | subscript => "sub"
  | superscript => "sup"
  | code => "code"
  | mark => "mark"
  | label => "label"
  | lineBreak => "br"
  | image => "img"
  | vector => "svg"
  | table => "table"
  | tableCaption => "caption"
  | tableHead => "thead"
  | tableBody => "tbody"
  | tableFoot => "tfoot"
  | tableRow => "tr"
  | dataCell => "td"
  | headerCell => "th"

/-- The tag with a name, in any letter case. -/
def ofName? (name : String) : Option Tag :=
  let lowered := Text.lower name
  all.find? fun tag => tag.name == lowered

/-- How a tag is rendered by default. -/
def category : Tag → Category
  | head | title | metadata | link | style | script | noscript | template => .metadata
  | span | bold | strong | italic | emphasis | underline | strike | deleted | inserted | small
  | subscript | superscript | code | mark | label => .inline
  | anchor | lineBreak | listItem | image | vector | table | tableRow | dataCell | headerCell =>
    .special
  | _ => .block

/-- Whether a tag flows inline with text. Links do so, though they are rendered in their own way. -/
def isInline (tag : Tag) : Bool := tag.category == .inline || tag == anchor

/-- Whether a name is that of a tag that flows inline with text. -/
def isInlineName (name : String) : Bool := (ofName? name).any isInline

theorem mem_all (tag : Tag) : tag ∈ all := by
  cases tag <;> decide

theorem ofName?_name (tag : Tag) : ofName? tag.name = some tag := by
  have every : ∀ t ∈ all, ofName? t.name = some t := by decide +kernel
  exact every tag (mem_all tag)

end Tag

end PagedHtml
