import TemplateMarkup.OrderedMap
import TemplateMarkup.Text.Numeral
import TemplateMarkup.Text.Quoted
import TemplateMarkup.Text.WhiteSpace

/-! Settings of a compilation. -/
namespace TemplateMarkup

/-- Whether a class and an id may be given to an element from the selectors in its blocks. -/
structure Naming where
  classes : Bool
  ids : Bool
deriving DecidableEq, Inhabited

structure Config where
  debugMode : Bool := false
  styleNaming : Naming := ⟨true, true⟩
  scriptNaming : Naming := ⟨false, false⟩
  /-- The number of the first element with a tag. -/
  indexInitialCount : Nat := 0
  extra : OrderedMap String String := {}
deriving DecidableEq, Inhabited

inductive ConfigExpectation
  | boolean | index
deriving DecidableEq

def ConfigExpectation.message : ConfigExpectation → String
  | .boolean => "true or false"
  | .index => "a non-negative integer"

structure ConfigError where
  key : String
  value : String
  expected : ConfigExpectation
deriving DecidableEq

def ConfigError.message (e : ConfigError) : String :=
  "invalid value " ++ Text.quote e.value ++ " for " ++ e.key ++ ": expected "
    ++ e.expected.message

namespace Config

def readBoolean? (value : String) : Option Bool :=
  let word := Text.lowercase value
  if word = "true" || word = "1" || word = "yes" then some true
  else if word = "false" || word = "0" || word = "no" then some false
  else none

/-- Writes one entry. A known key takes only some values and keeps its own on any other; an
unknown key is noted. -/
def set (config : Config) (key value : String) : Except ConfigError Config :=
  let value := Text.trim value
  let boolean (write : Bool → Config) : Except ConfigError Config :=
    match readBoolean? value with
    | some flag => .ok (write flag)
    | none => .error { key, value, expected := .boolean }
  if key = "DEBUG_MODE" then
    boolean fun flag => { config with debugMode := flag }
  else if key = "DISABLE_STYLE_AUTO_ADD_CLASS" then
    boolean fun flag => { config with styleNaming := { config.styleNaming with classes := !flag } }
  else if key = "DISABLE_STYLE_AUTO_ADD_ID" then
    boolean fun flag => { config with styleNaming := { config.styleNaming with ids := !flag } }
  else if key = "DISABLE_SCRIPT_AUTO_ADD_CLASS" then
    boolean fun flag =>
      { config with scriptNaming := { config.scriptNaming with classes := !flag } }
  else if key = "DISABLE_SCRIPT_AUTO_ADD_ID" then
    boolean fun flag => { config with scriptNaming := { config.scriptNaming with ids := !flag } }
  else if key = "INDEX_INITIAL_COUNT" then
    match Text.readIndex? value with
    | some count => .ok { config with indexInitialCount := count }
    | none => .error { key, value, expected := .index }
  else .ok { config with extra := config.extra.insert key value }

end Config

end TemplateMarkup
