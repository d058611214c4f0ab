import TemplateMarkup.Text.WhiteSpace

/-! The tags of HTML. -/
namespace TemplateMarkup.Tags

/-- Elements that have no content. -/
def voidTags : List String :=
  ["area", "base", "br", "col", "embed", "hr", "img", "input", "link", "meta", "param",
   "source", "track", "wbr"]

def knownTags : List String :=
  ["a", "abbr", "address", "area", "article", "aside", "audio", "b", "base", "bdi", "bdo",
   "blockquote", "body", "br", "button", "canvas", "caption", "cite", "code", "col",
   "colgroup", "data", "datalist", "dd", "del", "details", "dfn", "dialog", "div", "dl", "dt",
   "em", "embed", "fieldset", "figcaption", "figure", "footer", "form", "h1", "h2", "h3", "h4",
   "h5", "h6", "head", "header", "hgroup", "hr", "html", "i", "iframe", "img", "input", "ins",
   "kbd", "label", "legend", "li", "link", "main", "map", "mark", "menu", "meta", "meter",
   "nav", "noscript", "object", "ol", "optgroup", "option", "output", "p", "param", "picture",
   "pre", "progress", "q", "rp", "rt", "ruby", "s", "samp", "section", "select", "slot",
   "small", "source", "span", "strong", "sub", "summary", "sup", "svg", "table", "tbody", "td",
   "template", "textarea", "tfoot", "th", "thead", "time", "title", "tr", "track", "u", "ul",
   "var", "video", "wbr"]

def isVoid (tag : String) : Bool := voidTags.contains (Text.lowercase tag)

def isKnown (tag : String) : Bool := knownTags.contains (Text.lowercase tag)

/-- The tags whose style and script blocks are for the whole document. -/
def isDocumentLevel (tag : String) : Bool :=
  Text.equalsIgnoringCase tag "html" || Text.equalsIgnoringCase tag "head"

end TemplateMarkup.Tags
