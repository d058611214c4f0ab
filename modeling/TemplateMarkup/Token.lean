import TemplateMarkup.SourceText

/-! Tokens of the template language. -/
namespace TemplateMarkup

/-- Reserved words. They still serve as names wherever a name is expected. -/
inductive Keyword
  | text | style | script | inherit | delete | insert | after | before | replace
  | atClause | top | bottom | fromClause | asClause | except | useClause | html5
deriving DecidableEq, Inhabited

def Keyword.all : List (String × Keyword) :=
  [("text", .text), ("style", .style), ("script", .script), ("inherit", .inherit),
   ("delete", .delete), ("insert", .insert), ("after", .after), ("before", .before),
   ("replace", .replace), ("at", .atClause), ("top", .top), ("bottom", .bottom),
   ("from", .fromClause), ("as", .asClause), ("except", .except), ("use", .useClause),
   ("html5", .html5)]

def Keyword.ofWord? (word : String) : Option Keyword := Keyword.all.lookup word

inductive BlockWord
  | template | custom | origin | importing | scope | configuration | info | exporting | name
  | originType
deriving DecidableEq, Inhabited

def BlockWord.all : List (String × BlockWord) :=
  [("Template", .template), ("Custom", .custom), ("Origin", .origin), ("Import", .importing),
   ("Namespace", .scope), ("Configuration", .configuration), ("Info", .info),
   ("Export", .exporting), ("Name", .name), ("OriginType", .originType)]

def BlockWord.ofWord? (word : String) : Option BlockWord := BlockWord.all.lookup word

/-- Words after an at sign. Unknown ones are kept, since they name kinds of foreign text. -/
inductive AtWord
  | style | element | var | html | javaScript | chtl | cjmod | config
  | other (word : String)
deriving DecidableEq, Inhabited

def AtWord.ofWord (word : String) : AtWord :=
  if word = "Style" then .style
  else if word = "Element" then .element
  else if word = "Var" then .var
  else if word = "Html" then .html
  else if word = "JavaScript" then .javaScript
  else if word = "Chtl" then .chtl
  else if word = "CJmod" then .cjmod
  else if word = "Config" then .config
  else .other word

def AtWord.word : AtWord → String
  | .style => "Style"
  | .element => "Element"
  | .var => "Var"
  | .html => "Html"
  | .javaScript => "JavaScript"
  | .chtl => "Chtl"
  | .cjmod => "CJmod"
  | .config => "Config"
  | .other word => word

def AtWord.label (tag : AtWord) : String := "@" ++ tag.word

inductive CommentKind
  | line
  | block
  | generator
deriving DecidableEq, Inhabited

inductive TokenKind
  | identifier
  | keyword (word : Keyword)
  | block (word : BlockWord)
  /-- A word in brackets that opens no block. -/
  | bracketWord
  | atWord (word : AtWord)
  | string (value : String)
  | number
  | classSelector
  | idSelector
  | contextRef
  | comment (kind : CommentKind)
  /-- The body of an origin block. -/
  | rawText
  | leftBrace | rightBrace | leftBracket | rightBracket | leftParen | rightParen
  | semicolon | colon | equals | comma | dot
  | symbol (c : Char)
  | eof
deriving DecidableEq, Inhabited

structure Token where
  kind : TokenKind
  text : String
  span : Span
deriving DecidableEq, Inhabited

namespace TokenKind

def isName : TokenKind → Bool
  | .identifier => true
  | .keyword _ => true
  | _ => false

/-- A colon and an equals sign both stand between a key and its value. -/
def isAssign : TokenKind → Bool
  | .colon => true
  | .equals => true
  | _ => false

def endsStatement : TokenKind → Bool
  | .semicolon => true
  | .rightBrace => true
  | .eof => true
  | _ => false

/-- Comments that mean nothing after lexing. -/
def isPlainComment : TokenKind → Bool
  | .comment .line => true
  | .comment .block => true
  | _ => false

end TokenKind

namespace Token

def isName (token : Token) : Bool := token.kind.isName

def isAssign (token : Token) : Bool := token.kind.isAssign

def tailText (token : Token) : String := String.ofList (token.text.toList.drop 1)

def selectorName (token : Token) : String :=
  match token.kind with
  | .classSelector => token.tailText
  | .idSelector => token.tailText
  | _ => token.text

end Token

end TemplateMarkup
