import TemplateMarkup.Node

/-! The text of tags and attributes. -/
namespace TemplateMarkup.Markup

def escapeChar (c : Char) : String :=
  if c = '&' then "&amp;"
  else if c = '<' then "&lt;"
  else if c = '>' then "&gt;"
  else if c = '"' then "&quot;"
  else String.singleton c

/-- A text that markup shows as it is. -/
def escape (text : String) : String := String.join (text.toList.map escapeChar)

/-- Style declarations, each ended by a semicolon. -/
def declarations (properties : OrderedMap String String) : String :=
  String.join (properties.toList.map fun (name, value) => name ++ ":" ++ value ++ ";")

def attributeText (name value : String) : String := " " ++ name ++ "=\"" ++ escape value ++ "\""

/-- A style attribute with declarations behind what it says. -/
def mergeStyle (value : String) (properties : OrderedMap String String) : String :=
  let value := Text.trim value
  let mark := if value.isEmpty || value.toList.getLast? == some ';' then "" else ";"
  value ++ mark ++ declarations properties

/-- The attributes of a tag. An inline style goes into the style attribute, which comes last if
there was none. -/
def attributes (attributes properties : OrderedMap String String) : String :=
  let written := attributes.toList.map fun (name, value) =>
    if name = "style" ∧ !properties.isEmpty then attributeText name (mergeStyle value properties)
    else attributeText name value
  let added :=
    if properties.isEmpty || attributes.contains "style" then ""
    else attributeText "style" (declarations properties)
  String.join written ++ added

def openTag (node : Node) : String :=
  "<" ++ node.name ++ attributes node.attributes node.properties ++ ">"

def closeTag (node : Node) : String := "</" ++ node.name ++ ">"

def comment (content : String) : String := "<!-- " ++ Text.trim content ++ " -->"

def doctype : String := "<!DOCTYPE html>"

end TemplateMarkup.Markup
